import Idula.Zig.Bytes

/-! The operators of op.zig: their tags, the spellings written beside them, and the
nested switch of Op.fromStr. Tags are read by name, so a name that several of the
enumerations declare is one tag. -/
namespace Idula.Lang
open Zig

/-- The operator tags that Op.fromStr returns or that a comment spells. The tag that
the source calls def, returned for ":=" and declared nowhere, is defn. -/
inductive Op where
  | semicolon
  | and | or | not | never | therefore | query | amp
  | abs | join | mul | dot | dblQuery | dblExclm | dblFslash
  | eq | ne | gt | lt | ge | le | is | dblLt | dblGt | approxEq
  | assign | defAssign | optAssign | addAssign | subAssign | mulAssign | divAssign | expAssign | modAssign
  | metaDev | metaTag | metaPair | metaQuery | queryNever | neverQuery | selfTag | tagged | paired
  | ref | dblRef | deref | copy | actorRepr | absActorRepr | dev | devMeta | litTag | litPair
  | farrow | barrow | fdblArrow | bdblArrow | bothArrow
  | rangePre | rangeCol | rangeOpt | rangeExc | rangeInc | range
  | env | envData | defn | dblColon
  deriving DecidableEq, Repr

namespace Op

/-- Logic, with the spelling in each member's comment. -/
def Logic : List (Str × Op) :=
  [(lit "&&", .and), (lit "||", .or), (lit "~~", .not), (lit "!", .never), (lit ":;", .therefore),
   (lit "?", .query), (lit "&", .amp)]

def Math : List (Str × Op) :=
  [(lit "<>", .abs), (lit "++", .join), (lit "**", .mul), (lit "*+", .dot)]

def Cmp : List (Str × Op) :=
  [(lit "==", .eq), (lit "!=", .ne), (lit ">", .gt), (lit "<", .lt), (lit ">=", .ge), (lit "<=", .le),
   (lit ":=", .is), (lit "<<", .dblLt), (lit ">>", .dblGt), (lit "~=", .approxEq)]

def Assign : List (Str × Op) :=
  [(lit "=", .assign), (lit ":=", .defAssign), (lit "?=", .optAssign), (lit "+=", .addAssign),
   (lit "-=", .subAssign), (lit "*=", .mulAssign), (lit "/=", .divAssign), (lit "^=", .expAssign),
   (lit "%=", .modAssign)]

def Meta : List (Str × Op) :=
  [(lit ":@", .metaDev), (lit ":#", .metaTag), (lit "::#", .metaPair), (lit "?:", .metaQuery),
   (lit "?!", .queryNever), (lit "!?", .neverQuery), (lit "!:", .selfTag), (lit ":", .tagged),
   (lit "::", .paired)]

def Reference : List (Str × Op) :=
  [(lit "&", .ref), (lit "&&", .dblRef), (lit "*", .deref), (lit "+", .copy), (lit "$", .actorRepr),
   (lit "$$", .absActorRepr), (lit "@", .dev), (lit "@@", .devMeta), (lit ":", .litTag),
   (lit "::", .litPair), (lit "#", .metaTag), (lit "##", .metaPair), (lit "->", .farrow),
   (lit "<-", .barrow), (lit "->>", .fdblArrow), (lit "<<-", .bdblArrow), (lit "<->", .bothArrow)]

def Range : List (Str × Op) :=
  [(lit "..", .rangePre), (lit "..:", .rangeCol), (lit "..?", .rangeOpt), (lit "..!", .rangeExc),
   (lit "..=", .rangeInc), (lit "...", .range)]

/-- Every documented spelling beside the operator it documents. -/
def documented : List (Str × Op) :=
  Logic ++ Math ++ Cmp ++ Assign ++ Meta ++ Reference ++ Range ++ [(lit ";", .semicolon)]

/-- The operator language D. -/
def spellings : List Str := documented.map Prod.fst

/-- How a switch statement is left: by a return in the arm taken, or at its end. -/
inductive Flow where
  | ret (r : Option Op)
  | done
  deriving DecidableEq

/-- The source has two arms for '&'; which of them the switch takes is left open. -/
inductive AmpArm where
  | first
  | second
  deriving DecidableEq

/-- The arms 'a'...'z', 'A'...'Z', '0'...'9'. -/
def alnum (c : Char) : Bool :=
  ('a' ≤ c && c ≤ 'z') || ('A' ≤ c && c ≤ 'Z') || ('0' ≤ c && c ≤ '9')

/-- A byte as the character literals of the switch arms write it. -/
def chr (b : UInt8) : Char := Char.ofNat b.toNat

def charAt (s : Str) (i : Nat) : Except IndexOutOfBounds Char := chr <$> byteAt s i

theorem chr_toNat (b : UInt8) : (chr b).toNat = b.toNat := by
  have hv : b.toNat.isValidChar := Or.inl (by have := b.toNat_lt; omega)
  rw [chr, Char.ofNat, dif_pos hv]
  rfl

theorem chr_injective : Function.Injective chr := fun a b h =>
  UInt8.toNat_inj.mp (by rw [← chr_toNat a, ← chr_toNat b, h])

/-- The bytes of a literal are the ones its characters compare equal to. -/
theorem mem_lit_of_chr {s : String} {b : UInt8} {c : Char} (hb : chr b = c) (hc : c ∈ s.toList) :
    b ∈ lit s := by
  refine List.mem_map.mpr ⟨c, hc, ?_⟩
  rw [← hb, chr_toNat]
  exact UInt8.ofNat_toNat

def dashArm (c : Char) : Flow := if alnum c then .ret none else .done

def fslashArm : Char → Flow
  | '/' => .ret (some .dblFslash)
  | '=' => .ret (some .dblFslash)
  | _ => .done

def dotDotArm : Char → Flow
  | '.' => .ret (some .range)
  | ':' => .ret (some .rangeCol)
  | '=' => .ret (some .rangeInc)
  | '!' => .ret (some .rangeExc)
  | _ => .ret (some .rangePre)

def gtArm : Char → Flow
  | '=' => .ret (some .ge)
  | '>' => .ret (some .dblGt)
  | c => if c = ' ' || alnum c || c = '_' then .ret (some .gt) else .done

def ltArm : Char → Flow
  | '>' => .ret (some .abs)
  | '=' => .ret (some .le)
  | '-' => .ret (some .barrow)
  | '<' => .ret (some .dblLt)
  | c => if c = ' ' || alnum c || c = '_' then .ret (some .lt) else .done

def exclmArm : Char → Flow
  | '?' => .ret (some .neverQuery)
  | '!' => .ret (some .dblExclm)
  | '=' => .ret (some .ne)
  | ':' => .ret (some .selfTag)
  | _ => .done

def colonColonArm : Char → Flow
  | '#' => .ret (some .metaPair)
  | c => if c = ' ' || c = '\n' || alnum c || c = '_' then .ret (some .dblColon) else .done

def dotArm (s : Str) : Char → Except IndexOutOfBounds Flow
  | '.' => return dotDotArm (← charAt s 2)
  | ' ' => return .ret (some .envData)
  | _ => return .done

def colonArm (s : Str) : Char → Except IndexOutOfBounds Flow
  | '=' => return .ret (some .defn)
  | ' ' => return .ret (some .env)
  | ':' => return colonColonArm (← charAt s 2)
  | '@' => return .ret (some .metaDev)
  | '#' => return .ret (some .metaTag)
  | c => return if alnum c || c = '_' then .ret (some .tagged) else .done

/-- The arm for '!' has no return: its operator is dropped. -/
def queryArm : Char → Flow
  | ':' => .ret (some .metaQuery)
  | '?' => .ret (some .dblQuery)
  | '!' => .done
  | _ => .done

def ampArm : AmpArm → Char → Flow
  | .second, '&' => .ret (some .and)
  | _, _ => .done

/-- The arms of switch (s[0]). One that looks ahead reads s[1], and s[2] after ".." and "::". -/
def arm (amp : AmpArm) (s : Str) : Char → Except IndexOutOfBounds Flow
  | ';' => return .ret (some .semicolon)
  | '-' => return dashArm (← charAt s 1)
  | '@' | '#' | '%' | '^' | '*' | '+' | '=' | '|' | '\\' | '\n' | '\t' | '`' | '~' | ',' => do
    let _ ← charAt s 1
    return .done
  | '&' => return ampArm amp (← charAt s 1)
  | '/' => return fslashArm (← charAt s 1)
  | '.' => do dotArm s (← charAt s 1)
  | '>' => return gtArm (← charAt s 1)
  | '<' => return ltArm (← charAt s 1)
  | '!' => return exclmArm (← charAt s 1)
  | ':' => do colonArm s (← charAt s 1)
  | '?' => return queryArm (← charAt s 1)
  | _ => return .done

/-- The comparisons after the switch; past them the function ends without a value. -/
def arrows (s : Str) : Option Op :=
  if lit "->" = s then some .farrow
  else if lit "<-" = s then some .barrow
  else none

theorem arrows_eq_none {s : Str} (hf : s ≠ lit "->") (hb : s ≠ lit "<-") : arrows s = none := by
  unfold arrows
  rw [if_neg hf.symm, if_neg hb.symm]

def fromStr (amp : AmpArm) (s : Str) : Except IndexOutOfBounds (Option Op) := do
  match ← arm amp s (← charAt s 0) with
  | .ret r => return r
  | .done => return arrows s

/-- The result of a switch left in this way, when the text after it computes r. -/
def Flow.result (r : Option Op) : Flow → Option Op
  | .ret r => r
  | .done => r

theorem fromStr_cons (amp : AmpArm) (a : UInt8) (s : Str) :
    fromStr amp (a :: s) = (arm amp (a :: s) (chr a)).map (Flow.result (arrows (a :: s))) := by
  change (arm amp (a :: s) (chr a) >>= _) = _
  cases arm amp (a :: s) (chr a) with
  | error e => rfl
  | ok f => cases f <;> rfl

end Op
end Idula.Lang
