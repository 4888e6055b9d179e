import Idula.Zig.Bytes

/-! The command line from the process arguments to Cmd.exec: one argument iterator that
main and parse_args consume in turn. -/
namespace Idula.Cli.Args
open Zig

/-- Cmd; every tag but repl carries a target. -/
inductive Cmd where
  | help (target : Option Str)
  | run (target : Option Str)
  | compile (target : Option Str)
  | init (target : Option Str)
  | workspace (target : Option Str)
  | repl
  deriving DecidableEq

/-- util.eq: c is the short or the long name. -/
def eq (short long c : Str) : Bool := short == c || long == c

def Cmd.fromStr (c : Str) : Cmd :=
  if eq (lit "r") (lit "run") c then .run none
  else if eq (lit "c") (lit "compile") c then .compile none
  else if eq (lit "i") (lit "init") c then .init none
  else if eq (lit "re") (lit "repl") c then .repl
  else if eq (lit "h") (lit "help") c then .help none
  else .help none

/-- What the arms of exec call, each with the argument it is given. -/
inductive Action where
  | repl
  | printUsage
  | initProject (c2 : Option Str)
  | initWorkspace (c2 : Option Str)
  | printFile (path : Str)
  | nothing
  deriving DecidableEq

/-- Cmd.exec prints the number of the arguments and does one thing. -/
structure Exec where
  printed : Nat
  action : Action
  deriving DecidableEq

def Cmd.exec (self : Cmd) (c2 : Option Str) (args : List Str) : Exec where
  printed := args.length
  action :=
    match self with
    | .repl => .repl
    | .help _ => .printUsage
    | .init _ => .initProject c2
    | .workspace _ => .initWorkspace c2
    | .run _ | .compile _ =>
      match c2 with
      | some f => .printFile f
      | none => .nothing

/-- The arguments that the iterator has still to yield. -/
abbrev ArgIterator := List Str

/-- next: an argument and the iterator after it, or null. -/
def ArgIterator.next : ArgIterator → Option Str × ArgIterator
  | [] => (none, [])
  | arg :: args => (some arg, args)

def ArgIterator.skip (args : ArgIterator) : ArgIterator := args.next.2

/-- The panic of count += 1 at the largest u8. -/
structure IntegerOverflow where
  deriving DecidableEq

def increment (count : UInt8) : Except IntegerOverflow UInt8 :=
  if count = 255 then .error ⟨⟩ else .ok (count + 1)

/-- One line of "{d}: {s}". -/
structure Line where
  count : UInt8
  arg : Str
  deriving DecidableEq

/-- The while loop of parse_args with what it prints. -/
def parseLoop (count : UInt8) : ArgIterator → Except IntegerOverflow (List Line)
  | [] => .ok []
  | arg :: args => do
    let count' ← increment count
    let lines ← parseLoop count' args
    return ⟨count, arg⟩ :: lines

/-- parse_args returns the slice it declared undefined. -/
def parseArgs (undef : List Str) (args : ArgIterator) :
    Except IntegerOverflow (List Line × List Str) := do
  let lines ← parseLoop 2 args
  return (lines, undef)

/-- The call of Cmd.exec. -/
structure Call where
  cmd : Cmd
  c2 : Option Str
  args : List Str
  deriving DecidableEq

/-- main up to its call of Cmd.exec; undef stands for the undefined slice. -/
def main (undef : List Str) (argv : List Str) : Except IntegerOverflow Call := do
  let args : ArgIterator := argv
  let args := args.skip
  let (next, args) := args.next
  let c1 := next.getD (lit "help")
  let (c2, args) := args.next
  let cmd := Cmd.fromStr c1
  let (_, ags) ← parseArgs undef args
  return ⟨cmd, c2, ags⟩

variable {argv undef : List Str} {count : UInt8}

@[simp] theorem next_fst (args : ArgIterator) : args.next.1 = args[0]? := by
  cases args <;> rfl

@[simp] theorem next_snd (args : ArgIterator) : args.next.2 = args.drop 1 := by
  cases args <;> rfl

theorem increment_eq (h : count.toNat < 255) :
    increment count = .ok (count + 1) ∧ (count + 1).toNat = count.toNat + 1 := by
  constructor
  · refine if_neg fun he => ?_
    rw [he] at h
    exact absurd h (by decide)
  · rw [UInt8.toNat_add, UInt8.toNat_one]
    omega

theorem increment_last (h : ¬ count.toNat < 255) : increment count = .error ⟨⟩ := by
  have hlt := count.toNat_lt
  exact if_pos (UInt8.toNat.inj (show count.toNat = 255 by omega))

/-- The loop overflows its counter exactly when the arguments exceed what is left of it. -/
theorem parseLoop_spec (count : UInt8) (args : ArgIterator) :
    if count.toNat + args.length < 256 then
      ∃ lines, parseLoop count args = .ok lines ∧ lines.map Line.arg = args ∧
        lines.map (·.count.toNat) = List.range' count.toNat args.length
    else parseLoop count args = .error ⟨⟩ := by
  induction args generalizing count with
  | nil =>
    have hlt := count.toNat_lt
    rw [if_pos (by simpa using hlt)]
    exact ⟨[], rfl, rfl, rfl⟩
  | cons arg args ih =>
    rw [List.length_cons, parseLoop]
    by_cases hc : count.toNat < 255
    · obtain ⟨hi, hn⟩ := increment_eq hc
      have hr := ih (count + 1)
      rw [hn] at hr
      rw [hi]
      by_cases hl : count.toNat + (args.length + 1) < 256
      · rw [if_pos (by omega)] at hr
        obtain ⟨lines, he, ha, hk⟩ := hr
        rw [if_pos hl]
        refine ⟨⟨count, arg⟩ :: lines, ?_, ?_, ?_⟩
        · simp only [bind, Except.bind, he]
          rfl
        · rw [List.map_cons, ha]
        · rw [List.map_cons, hk, List.range'_succ]
      · rw [if_neg (by omega)] at hr
        rw [if_neg hl]
        simp only [bind, Except.bind, hr]
    · rw [increment_last hc, if_neg (by omega)]
      rfl

/-- The whole of main: the first two arguments arrive, the rest is counted and dropped. -/
theorem main_eq (undef argv : List Str) :
    main undef argv =
      if argv.length < 257 then
        .ok ⟨Cmd.fromStr (argv[1]?.getD (lit "help")), argv[2]?, undef⟩
      else .error ⟨⟩ := by
  have hs := parseLoop_spec 2 (argv.drop 3)
  have hn : (2 : UInt8).toNat + (argv.drop 3).length < 256 ↔ argv.length < 257 := by
    rw [List.length_drop]
    show 2 + (argv.length - 3) < 256 ↔ _
    omega
  simp only [hn] at hs
  have hm : main undef argv = (parseLoop 2 (argv.drop 3)).map fun _ =>
      ⟨Cmd.fromStr (argv[1]?.getD (lit "help")), argv[2]?, undef⟩ := by
    simp only [main, parseArgs, ArgIterator.skip, next_fst, next_snd, List.drop_drop,
      List.getElem?_drop]
    cases parseLoop 2 (argv.drop 3) <;> rfl
  rw [hm]
  by_cases hl : argv.length < 257
  · rw [if_pos hl] at hs ⊢
    obtain ⟨lines, he, _⟩ := hs
    rw [he]
    rfl
  · rw [if_neg hl] at hs ⊢
    rw [hs]
    rfl

/-- The call that the command line asks for. -/
structure Plumbed (argv : List Str) (call : Call) : Prop where
  cmd : call.cmd = Cmd.fromStr (argv[1]?.getD (lit "help"))
  c2 : call.c2 = argv[2]?
  args : call.args = argv.drop 3

/-- main makes that call, whatever an undefined slice holds. -/
def Plumbs (argv : List Str) : Prop :=
  ∀ undef, ∃ call, main undef argv = .ok call ∧ Plumbed argv call

/-- The remaining arguments reach Cmd.exec on no command line. -/
theorem not_plumbs (argv : List Str) : ¬ Plumbs argv := by
  intro h
  have hundef (undef : List Str) : undef = argv.drop 3 := by
    obtain ⟨call, hm, hp⟩ := h undef
    rw [main_eq] at hm
    split at hm
    · cases hm
      exact hp.args
    · cases hm
  exact absurd ((hundef []).trans (hundef [[]]).symm) (by simp)

/-- The fourth argument of "idula run a.is x" is not passed on. -/
theorem run_argument_lost :
    ¬ Plumbs [lit "idula", lit "run", lit "a.is", lit "x"] := by
  intro h
  obtain ⟨call, hm, hp⟩ := h []
  rw [main_eq] at hm
  cases hm
  exact absurd hp.args (by decide)

/-- Everything but the list of remaining arguments is plumbed as long as main returns. -/
theorem main_partial {call : Call} (h : main undef argv = .ok call) :
    Plumbed argv { call with args := argv.drop 3 } := by
  rw [main_eq] at h
  split at h
  · cases h
    exact ⟨rfl, rfl, rfl⟩
  · cases h

/-- No name of a command selects the workspace arm of exec. -/
theorem exec_ne_initWorkspace (c : Str) (c2 : Option Str) (args : List Str) (d : Option Str) :
    ((Cmd.fromStr c).exec c2 args).action ≠ .initWorkspace d := by
  unfold Cmd.fromStr
  split_ifs <;> cases c2 <;> simp [Cmd.exec]

end Idula.Cli.Args
