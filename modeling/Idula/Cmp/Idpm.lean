import Idula.Zig.Scripts
import Idula.Cli.Project

/-! The other copy of Project, in idpm: it opens the directories that are there, so that it
succeeds and can be run again, and writes every source file under one name. -/
namespace Idula.Cmp.Idpm
open Zig Library
open Cli.Project (ProjectType gitignore readme buildIs src mainIs libIs)

def release : EntryName := ⟨lit "release", by decide, by decide⟩
def debug : EntryName := ⟨lit "debug", by decide, by decide⟩
def pkg : EntryName := ⟨lit "pkg", by decide, by decide⟩
def cache : EntryName := ⟨lit "cache", by decide, by decide⟩

/-- The texts that are embedded: for a base file that of the pass of the loop, since its path is
made with files[i], and for a source file that of its name. -/
structure Templates where
  base : Nat → Str
  srcFile : EntryName → Str

/-- baseFiles, for the configuration file config_templ_name. -/
def baseFiles (config : EntryName) : List EntryName := [config, gitignore, readme, buildIs]

/-- Type.srcFiles. -/
def srcFiles (ty : ProjectType) (config : EntryName) : List EntryName :=
  config :: match ty with
    | .hybrid => [mainIs, libIs]
    | .bin => [mainIs]
    | .lib | .exelib => [libIs]

/-- createSrcFiles: the loop runs over the names, and writes to config_templ_name. -/
def createSrcFiles (tmpl : Templates) (ty : ProjectType) (config : EntryName) : List Call :=
  .makeOpenPath src ::
    (srcFiles ty config).map fun fname => .writeFileIn src config (tmpl.srcFile fname)

/-- The names of the directories that createOutFiles opens. -/
def outs : List EntryName := [release, debug, pkg, cache]

def createOutFiles : List Call := outs.map .makeOpenPath

def baseFilesCalls (tmpl : Templates) (config : EntryName) : List Call :=
  writeFiles tmpl.base (baseFiles config)

/-- The current directory and, if that is another one, the directory of the project. -/
structure Dirs where
  cwd : Root
  own : Option Root

/-- self.dir. -/
def Dirs.dir (ds : Dirs) : Root := ds.own.getD ds.cwd

def Dirs.setDir (ds : Dirs) (d : Root) : Dirs :=
  match ds.own with
  | none => { ds with cwd := d }
  | some _ => { ds with own := some d }

/-- A script in self.dir. -/
def Dirs.inDir (cs : List Call) (ds : Dirs) : Dirs × Option FsError :=
  let r := script cs ds.dir
  (ds.setDir r.1, r.2)

/-- A script in std.fs.cwd(). -/
def Dirs.inCwd (cs : List Call) (ds : Dirs) : Dirs × Option FsError :=
  let r := script cs ds.cwd
  ({ ds with cwd := r.1 }, r.2)

/-- createBaseFiles: only the directories of createOutFiles are not made in the project's own. -/
def createBaseFiles (tmpl : Templates) (ty : ProjectType) (config : EntryName) (ds : Dirs) :
    Dirs × Option FsError :=
  match ds.inDir (baseFilesCalls tmpl config ++ createSrcFiles tmpl ty config) with
  | (ds, none) => ds.inCwd createOutFiles
  | (ds, some e) => (ds, some e)

/-- Nothing that is there is in the way, and neither is the configuration file. -/
structure Creatable (config : EntryName) (ds : Dirs) : Prop where
  files : ∀ n ∈ baseFiles config, ¬ IsDir ds.dir n
  srcDir : config ≠ src ∧ ¬ IsFile ds.dir src
  inSrc : ∀ entries nested, ds.dir.get src = some (.dir entries) → entries.lookup config ≠ some (.dir nested)
  outDirs : (ds.own = none → config ∉ outs) ∧ ∀ n ∈ outs, ¬ IsFile ds.cwd n

variable {tmpl : Templates} {ty : ProjectType} {config n : EntryName} {d d' d₁ c : Root} {ds ds' : Dirs}

@[simp] theorem Dirs.dir_setDir : (ds.setDir d).dir = d := by
  obtain ⟨cwd, own⟩ := ds
  cases own <;> rfl

end Idula.Cmp.Idpm
