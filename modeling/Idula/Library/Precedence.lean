import Mathlib.Data.Int.Order.Basic
import Mathlib.Data.List.Basic

/-! Expressions of operators before an operand, behind one, and between two that associate to
the left: the parser that shifts and reduces by strength reads exactly the grouped ones. -/
namespace Idula.Library.Precedence
variable {α κ : Type*}

/-- The strengths of the operators before an operand, between two, and behind one. A symbol can
be of the first kind and of one of the others. -/
structure Operators (κ : Type*) where
  unary : κ → Option Int
  prec : κ → Option Int
  post : κ → Option Int
  apart : ∀ {k p}, prec k = some p → post k = none

inductive Token (α κ : Type*)
  | atom (a : α)
  | op (k : κ)
  | lparen
  | rparen

inductive Expr (α κ : Type*)
  | atom (a : α)
  | paren (e : Expr α κ)
  | unary (k : κ) (e : Expr α κ)
  | post (e : Expr α κ) (k : κ)
  | binary (left : Expr α κ) (k : κ) (right : Expr α κ)

def Expr.tokens : Expr α κ → List (Token α κ)
  | .atom a => [.atom a]
  | .paren e => .lparen :: (e.tokens ++ [.rparen])
  | .unary k e => .op k :: e.tokens
  | .post e k => e.tokens ++ [.op k]
  | .binary l k r => l.tokens ++ .op k :: r.tokens

variable (ops : Operators κ)

/-- A strength against that of the operator ahead: the stronger is reduced, and between equals
the left one. Nothing can be shifted where no operator is ahead. -/
def reduces (ahead : Option Int) (p : Int) : Bool :=
  match ahead with
  | none => true
  | some q => q ≤ p

/-- No operator on the left edge would lose its operand to one of the strength p before it. -/
def Expr.follows (p : Int) : Expr α κ → Bool
  | .atom _ | .paren _ | .unary _ _ => true
  | .post e k => (ops.post k).all (p < ·) && e.follows p
  | .binary l k _ => (ops.prec k).all (p < ·) && l.follows p

/-- No operator on the right edge would lose its operand to the one ahead. -/
def Expr.precedes (ahead : Option Int) : Expr α κ → Bool
  | .atom _ | .paren _ | .post _ _ => true
  | .unary k e => (ops.unary k).all (reduces ahead) && e.precedes ahead
  | .binary _ k r => (ops.prec k).all (reduces ahead) && r.precedes ahead

/-- Every operator has its operands against all the others. -/
def Expr.Grouped : Expr α κ → Prop
  | .atom _ => True
  | .paren e => e.Grouped
  | .unary k e => ∃ u, ops.unary k = some u ∧ e.Grouped ∧ e.follows ops u
  | .post e k => ∃ p, ops.post k = some p ∧ e.Grouped ∧ e.precedes ops (some p)
  | .binary l k r => ∃ p, ops.prec k = some p ∧ l.Grouped ∧ r.Grouped ∧
      l.precedes ops (some p) ∧ r.follows ops p

/-- What waits on the stack for the expression to its right. -/
inductive Frame (α κ : Type*)
  | lparen
  | unary (k : κ)
  | binary (left : Expr α κ) (k : κ)

/-- An operand is due, or one has been read. -/
inductive State (α κ : Type*)
  | operand (stack : List (Frame α κ))
  | operator (e : Expr α κ) (stack : List (Frame α κ))

def reduce (ahead : Option Int) : List (Frame α κ) → Expr α κ → List (Frame α κ) × Expr α κ
  | .unary k :: stack, e =>
    if (ops.unary k).any (reduces ahead) then reduce ahead stack (.unary k e)
    else (.unary k :: stack, e)
  | .binary l k :: stack, e =>
    if (ops.prec k).any (reduces ahead) then reduce ahead stack (.binary l k e)
    else (.binary l k :: stack, e)
  | .lparen :: stack, e => (.lparen :: stack, e)
  | [], e => ([], e)

def step : State α κ → Token α κ → Option (State α κ)
  | .operand stack, .atom a => some (.operator (.atom a) stack)
  | .operand stack, .lparen => some (.operand (.lparen :: stack))
  | .operand stack, .op k => if (ops.unary k).isSome then some (.operand (.unary k :: stack)) else none
  | .operand _, .rparen => none
  | .operator e stack, .op k =>
    match ops.prec k with
    | some p =>
      let (stack, e) := reduce ops (some p) stack e
      some (.operand (.binary e k :: stack))
    | none =>
      match ops.post k with
      | some p =>
        let (stack, e) := reduce ops (some p) stack e
        some (.operator (.post e k) stack)
      | none => none
  | .operator e stack, .rparen =>
    match reduce ops none stack e with
    | (.lparen :: stack, e) => some (.operator (.paren e) stack)
    | _ => none
  | .operator _ _, .atom _ => none
  | .operator _ _, .lparen => none

def run (s : State α κ) (ts : List (Token α κ)) : Option (State α κ) := ts.foldlM (step ops) s

/-- The whole stack is reduced at the end. -/
def State.result : State α κ → Option (Expr α κ)
  | .operand _ => none
  | .operator e stack =>
    match reduce ops none stack e with
    | ([], e) => some e
    | _ => none

def parse (ts : List (Token α κ)) : Option (Expr α κ) := (run ops (.operand []) ts).bind (State.result ops)

def Frame.tokens : Frame α κ → List (Token α κ)
  | .lparen => [.lparen]
  | .unary k => [.op k]
  | .binary l k => l.tokens ++ [.op k]

/-- What has been read where this is the stack, from its bottom on. -/
def stackTokens : List (Frame α κ) → List (Token α κ)
  | [] => []
  | f :: stack => stackTokens stack ++ f.tokens

/-- The strength of the operator on top of the stack, up to a parenthesis, is one of P. -/
def Fits (P : Int → Prop) : List (Frame α κ) → Prop
  | .unary k :: _ => ∀ u, ops.unary k = some u → P u
  | .binary _ k :: _ => ∀ p, ops.prec k = some p → P p
  | .lparen :: _ | [] => True

/-- The operators on the stack have their left operands, and would not lose what is read next. -/
def StackOk : List (Frame α κ) → Prop
  | [] => True
  | .lparen :: stack => StackOk stack
  | .unary k :: stack => (∃ u, ops.unary k = some u) ∧ StackOk stack
  | .binary l k :: stack => (∃ p, ops.prec k = some p ∧ l.Grouped ops ∧ l.precedes ops (some p) ∧
      Fits ops (· < p) stack ∧ Fits ops (fun q => l.follows ops q) stack) ∧ StackOk stack

variable {ops} {e l r : Expr α κ} {k : κ} {stack : List (Frame α κ)} {ahead : Option Int} {p u : Int}
  {P Q : Int → Prop}

private theorem prec_none_of_post (hp : ops.post k = some p) : ops.prec k = none := by
  cases hq : ops.prec k with
  | none => rfl
  | some q =>
    rw [ops.apart hq] at hp
    cases hp

theorem fits_of_forall (h : ∀ p, P p) : Fits ops P stack := by
  cases stack with
  | nil => trivial
  | cons f stack =>
    cases f with
    | lparen => trivial
    | unary k => exact fun u _ => h u
    | binary l k => exact fun p _ => h p

theorem fits_and : Fits ops (fun p => P p ∧ Q p) stack ↔ Fits ops P stack ∧ Fits ops Q stack := by
  cases stack with
  | nil => exact ⟨fun _ => ⟨trivial, trivial⟩, fun _ => trivial⟩
  | cons f stack =>
    cases f with
    | lparen => exact ⟨fun _ => ⟨trivial, trivial⟩, fun _ => trivial⟩
    | unary k =>
      exact ⟨fun h => ⟨fun u hu => (h u hu).1, fun u hu => (h u hu).2⟩, fun h u hu => ⟨h.1 u hu, h.2 u hu⟩⟩
    | binary l k =>
      exact ⟨fun h => ⟨fun p hp => (h p hp).1, fun p hp => (h p hp).2⟩, fun h p hp => ⟨h.1 p hp, h.2 p hp⟩⟩

theorem follows_post (hp : ops.post k = some p) (q : Int) :
    (Expr.post e k).follows ops q ↔ q < p ∧ e.follows ops q := by
  simp [Expr.follows, hp]

theorem follows_binary (hp : ops.prec k = some p) (q : Int) :
    (Expr.binary l k r).follows ops q ↔ q < p ∧ l.follows ops q := by
  simp [Expr.follows, hp]

theorem precedes_unary (hu : ops.unary k = some u) :
    (Expr.unary k e).precedes ops ahead ↔ reduces ahead u ∧ e.precedes ops ahead := by
  simp [Expr.precedes, hu]

theorem precedes_binary (hp : ops.prec k = some p) :
    (Expr.binary l k r).precedes ops ahead ↔ reduces ahead p ∧ r.precedes ops ahead := by
  simp [Expr.precedes, hp]

/-- The end parts nothing. -/
theorem precedes_none (e : Expr α κ) : e.precedes ops none := by
  induction e with
  | atom a => rfl
  | paren e ih => rfl
  | post e k ih => rfl
  | unary k e ih => cases hu : ops.unary k <;> simp [Expr.precedes, hu, ih, reduces]
  | binary l k r ihl ihr => cases hp : ops.prec k <;> simp [Expr.precedes, hp, ihr, reduces]

theorem reduce_unary (hu : ops.unary k = some u) (h : reduces ahead u = true) :
    reduce ops ahead (.unary k :: stack) e = reduce ops ahead stack (.unary k e) := by
  rw [reduce, if_pos]
  rw [hu]
  exact h

theorem reduce_binary (hp : ops.prec k = some p) (h : reduces ahead p = true) :
    reduce ops ahead (.binary l k :: stack) e = reduce ops ahead stack (.binary l k e) := by
  rw [reduce, if_pos]
  rw [hp]
  exact h

/-- Where all on the stack is weaker than the operator ahead, nothing is reduced. -/
theorem reduce_of_fits (hf : Fits ops (· < p) stack) : reduce ops (some p) stack e = (stack, e) := by
  have hno (o : Option Int) (h : ∀ q, o = some q → q < p) : ¬ o.any (reduces (some p)) := by
    cases o with
    | none => simp
    | some q => simpa [reduces] using h q rfl
  cases stack with
  | nil => rfl
  | cons f stack =>
    cases f with
    | lparen => rfl
    | unary k => exact if_neg (hno _ hf)
    | binary l k => exact if_neg (hno _ hf)

/-- The frames that an expression leaves on the stack until it is reduced. -/
def Expr.spine : Expr α κ → List (Frame α κ)
  | .atom _ | .paren _ | .post _ _ => []
  | .unary k e => e.spine ++ [.unary k]
  | .binary l k r => r.spine ++ [.binary l k]

/-- The operand that is read last. -/
def Expr.last : Expr α κ → Expr α κ
  | .atom a => .atom a
  | .paren e => .paren e
  | .unary _ e => e.last
  | .post e k => .post e k
  | .binary _ _ r => r.last

/-- A grouped expression is put together again before an operator that parts nothing of it. -/
theorem reduce_spine (he : e.Grouped ops) (hs : e.precedes ops ahead) :
    reduce ops ahead (e.spine ++ stack) e.last = reduce ops ahead stack e := by
  induction e generalizing stack with
  | atom a => rfl
  | paren e ih => rfl
  | post e k ih => rfl
  | unary k e ih =>
    obtain ⟨u, hu, hg, -⟩ := he
    obtain ⟨hr, hs⟩ := (precedes_unary hu).mp hs
    rw [Expr.spine, List.append_assoc]
    exact (ih hg hs).trans (reduce_unary hu hr)
  | binary l k r ihl ihr =>
    obtain ⟨p, hp, -, hg, -, -⟩ := he
    obtain ⟨hr, hs⟩ := (precedes_binary hp).mp hs
    rw [Expr.spine, List.append_assoc]
    exact (ihr hg hs).trans (reduce_binary hp hr)

@[simp] theorem run_nil (s : State α κ) : run ops s [] = some s := rfl

theorem run_cons (s : State α κ) (t : Token α κ) (ts : List (Token α κ)) :
    run ops s (t :: ts) = (step ops s t).bind fun s' => run ops s' ts := rfl

theorem run_append (s : State α κ) (ts us : List (Token α κ)) :
    run ops s (ts ++ us) = (run ops s ts).bind fun s' => run ops s' us :=
  List.foldlM_append

/-- Reading a grouped expression where it fits. -/
theorem run_tokens (he : e.Grouped ops) (hf : Fits ops (fun p => e.follows ops p) stack) :
    run ops (.operand stack) e.tokens = some (.operator e.last (e.spine ++ stack)) := by
  induction e generalizing stack with
  | atom a => rfl
  | paren e ih =>
    have hopen : step ops (.operand stack) (.lparen : Token α κ) = some (.operand (.lparen :: stack)) := rfl
    have hclose : step ops (.operator e.last (e.spine ++ .lparen :: stack)) .rparen =
        some (.operator (.paren e) stack) := by
      have hr : reduce ops none (e.spine ++ .lparen :: stack) e.last = (.lparen :: stack, e) :=
        reduce_spine he (precedes_none e)
      rw [step, hr]
    have hin : Fits ops (fun p => e.follows ops p) (.lparen :: stack) := trivial
    rw [Expr.tokens, run_cons, hopen, Option.bind_some, run_append, ih he hin, Option.bind_some,
      run_cons, hclose]
    rfl
  | unary k e ih =>
    obtain ⟨u, hu, hg, hfol⟩ := he
    have hshift : step ops (.operand stack) (.op k : Token α κ) = some (.operand (.unary k :: stack)) := by
      rw [step, if_pos]
      rw [hu]
      rfl
    have hin : Fits ops (fun p => e.follows ops p) (.unary k :: stack) := fun u' hu' => by
      rw [hu] at hu'
      cases hu'
      exact hfol
    rw [Expr.tokens, run_cons, hshift, Option.bind_some, ih hg hin, Expr.spine, List.append_assoc]
    rfl
  | post e k ih =>
    obtain ⟨p, hp, hg, hpre⟩ := he
    simp only [follows_post hp] at hf
    obtain ⟨hfp, hfe⟩ := fits_and.mp hf
    have hshift : step ops (.operator e.last (e.spine ++ stack)) (.op k : Token α κ) =
        some (.operator (.post e k) stack) := by
      rw [step, prec_none_of_post hp, hp]
      simp only [reduce_spine hg hpre, reduce_of_fits hfp]
    rw [Expr.tokens, run_append, ih hg hfe, Option.bind_some, run_cons, hshift]
    rfl
  | binary l k r ihl ihr =>
    obtain ⟨p, hp, hl, hr, hpre, hfol⟩ := he
    simp only [follows_binary hp] at hf
    obtain ⟨hfp, hfl⟩ := fits_and.mp hf
    have hshift : step ops (.operator l.last (l.spine ++ stack)) (.op k : Token α κ) =
        some (.operand (.binary l k :: stack)) := by
      rw [step, hp]
      simp only [reduce_spine hl hpre, reduce_of_fits hfp]
    have hfr : Fits ops (fun p => r.follows ops p) (.binary l k :: stack) := fun p' hp' => by
      rw [hp] at hp'
      cases hp'
      exact hfol
    rw [Expr.tokens, run_append, ihl hl hfl, Option.bind_some, run_cons, hshift, Option.bind_some,
      ihr hr hfr, Expr.spine, List.append_assoc]
    rfl

/-- Every grouped expression is read. -/
theorem parse_tokens (he : e.Grouped ops) : parse ops e.tokens = some e := by
  have hr : run ops (.operand []) e.tokens = some (.operator e.last (e.spine ++ [])) :=
    run_tokens he trivial
  have hred : reduce ops none (e.spine ++ []) e.last = ([], e) := reduce_spine he (precedes_none e)
  rw [parse, hr, Option.bind_some, State.result, hred]

/-- An expression that has been read up to here, on its stack. -/
structure Sound (ops : Operators κ) (e : Expr α κ) (stack : List (Frame α κ)) : Prop where
  grouped : e.Grouped ops
  ok : StackOk ops stack
  fits : Fits ops (fun p => e.follows ops p) stack

/-- What a reduction leaves: the same tokens, read as before, and nothing that the operator ahead
would part. -/
structure Reduced (ops : Operators κ) (ahead : Option Int) (ts : List (Token α κ))
    (x : List (Frame α κ) × Expr α κ) : Prop where
  sound : Sound ops x.2 x.1
  precedes : x.2.precedes ops ahead
  fits : ∀ q, ahead = some q → Fits ops (· < q) x.1
  tokens : stackTokens x.1 ++ x.2.tokens = ts

private theorem weaker_of_not_reduces (h : ¬ reduces ahead p = true) {q : Int} (hq : ahead = some q) :
    p < q := by
  rw [hq] at h
  exact Int.not_le.mp fun hle => h (decide_eq_true hle)

theorem reduce_sound (h : Sound ops e stack) (hs : e.precedes ops ahead) :
    Reduced ops ahead (stackTokens stack ++ e.tokens) (reduce ops ahead stack e) := by
  induction stack generalizing e with
  | nil => exact ⟨h, hs, fun _ _ => trivial, rfl⟩
  | cons f stack ih =>
    cases f with
    | lparen => exact ⟨h, hs, fun _ _ => trivial, rfl⟩
    | unary k =>
      obtain ⟨⟨u, hu⟩, hok⟩ := h.ok
      by_cases hr : reduces ahead u = true
      · have hg : (Expr.unary k e).Grouped ops := ⟨u, hu, h.grouped, h.fits u hu⟩
        have hfits : Fits ops (fun p => (Expr.unary k e).follows ops p) stack := fits_of_forall fun _ => rfl
        have hred := ih ⟨hg, hok, hfits⟩ ((precedes_unary hu).mpr ⟨hr, hs⟩)
        rw [reduce_unary hu hr]
        simpa [stackTokens, Frame.tokens, Expr.tokens] using hred
      · have hstop : reduce ops ahead (.unary k :: stack) e = (.unary k :: stack, e) := by
          rw [reduce, if_neg]
          rw [hu]
          exact hr
        rw [hstop]
        refine ⟨h, hs, fun q hq u' hu' => ?_, rfl⟩
        rw [hu] at hu'
        cases hu'
        exact weaker_of_not_reduces hr hq
    | binary l k =>
      obtain ⟨⟨p, hp, hl, hpre, hfp, hfl⟩, hok⟩ := h.ok
      by_cases hr : reduces ahead p = true
      · have hg : (Expr.binary l k e).Grouped ops := ⟨p, hp, hl, h.grouped, hpre, h.fits p hp⟩
        have hfits : Fits ops (fun q => (Expr.binary l k e).follows ops q) stack := by
          simp only [follows_binary hp]
          exact fits_and.mpr ⟨hfp, hfl⟩
        have hred := ih ⟨hg, hok, hfits⟩ ((precedes_binary hp).mpr ⟨hr, hs⟩)
        rw [reduce_binary hp hr]
        simpa [stackTokens, Frame.tokens, Expr.tokens] using hred
      · have hstop : reduce ops ahead (.binary l k :: stack) e = (.binary l k :: stack, e) := by
          rw [reduce, if_neg]
          rw [hp]
          exact hr
        rw [hstop]
        refine ⟨h, hs, fun q hq p' hp' => ?_, rfl⟩
        rw [hp] at hp'
        cases hp'
        exact weaker_of_not_reduces hr hq

def State.tokens : State α κ → List (Token α κ)
  | .operand stack => stackTokens stack
  | .operator e stack => stackTokens stack ++ e.tokens

/-- What holds between two tokens; an operand that has just been read cannot be parted. -/
def State.Ok (ops : Operators κ) : State α κ → Prop
  | .operand stack => StackOk ops stack
  | .operator e stack => Sound ops e stack ∧ ∀ ahead, e.precedes ops ahead

variable {s s' : State α κ} {t : Token α κ} {ts : List (Token α κ)}

private theorem sound_whole (hg : e.Grouped ops) (hok : StackOk ops stack)
    (h : ∀ p, e.follows ops p) : Sound ops e stack :=
  ⟨hg, hok, fits_of_forall h⟩

theorem step_sound (h : s.Ok ops) (hs : step ops s t = some s') :
    s'.Ok ops ∧ s'.tokens = s.tokens ++ [t] := by
  cases s with
  | operand stack =>
    cases t with
    | atom a =>
      cases hs
      exact ⟨⟨sound_whole trivial h fun _ => rfl, fun _ => rfl⟩, rfl⟩
    | op k =>
      rw [step] at hs
      cases hu : ops.unary k with
      | none => simp [hu] at hs
      | some u =>
        rw [hu] at hs
        cases hs
        exact ⟨⟨⟨u, hu⟩, h⟩, rfl⟩
    | lparen =>
      cases hs
      exact ⟨h, rfl⟩
    | rparen => cases hs
  | operator e stack =>
    obtain ⟨h, hpre⟩ := h
    cases t with
    | atom a => cases hs
    | lparen => cases hs
    | op k =>
      rw [step] at hs
      cases hp : ops.prec k with
      | some p =>
        rw [hp] at hs
        cases hs
        have hred := reduce_sound h (hpre (some p))
        refine ⟨⟨⟨p, hp, hred.sound.grouped, hred.precedes, hred.fits p rfl, hred.sound.fits⟩,
          hred.sound.ok⟩, ?_⟩
        simp [State.tokens, stackTokens, Frame.tokens, ← hred.tokens]
      | none =>
        rw [hp] at hs
        cases hq : ops.post k with
        | none => simp [hq] at hs
        | some p =>
          rw [hq] at hs
          cases hs
          have hred := reduce_sound h (hpre (some p))
          refine ⟨⟨⟨⟨p, hq, hred.sound.grouped, hred.precedes⟩, hred.sound.ok, ?_⟩, fun _ => rfl⟩, ?_⟩
          · simp only [follows_post hq]
            exact fits_and.mpr ⟨hred.fits p rfl, hred.sound.fits⟩
          · simp [State.tokens, Expr.tokens, ← hred.tokens]
    | rparen =>
      have hred := reduce_sound h (hpre none)
      rw [step] at hs
      split at hs
      · rename_i stack' e' hr
        cases hs
        rw [hr] at hred
        refine ⟨⟨sound_whole hred.sound.grouped hred.sound.ok fun _ => rfl, fun _ => rfl⟩, ?_⟩
        simp only [State.tokens, ← hred.tokens]
        simp [stackTokens, Frame.tokens, Expr.tokens]
      · cases hs

theorem run_sound (h : s.Ok ops) (hr : run ops s ts = some s') :
    s'.Ok ops ∧ s'.tokens = s.tokens ++ ts := by
  induction ts generalizing s with
  | nil =>
    cases hr
    exact ⟨h, (List.append_nil _).symm⟩
  | cons t ts ih =>
    obtain ⟨u, hu, hr⟩ := Option.bind_eq_some_iff.mp hr
    obtain ⟨hok, ht⟩ := step_sound h hu
    obtain ⟨hok', ht'⟩ := ih hok hr
    exact ⟨hok', by rw [ht', ht, List.append_assoc, List.singleton_append]⟩

/-- The parser reads exactly the grouped expressions, each from its own tokens. -/
theorem parse_eq_some_iff : parse ops ts = some e ↔ e.Grouped ops ∧ e.tokens = ts := by
  constructor
  · intro h
    obtain ⟨s, hr, he⟩ := Option.bind_eq_some_iff.mp h
    obtain ⟨hok, ht⟩ := run_sound (s := .operand []) trivial hr
    cases s with
    | operand stack => cases he
    | operator e' stack =>
      obtain ⟨hok, hpre⟩ := hok
      have hred := reduce_sound hok (hpre none)
      rw [State.result] at he
      split at he
      · rename_i e'' hr'
        cases he
        rw [hr'] at hred
        exact ⟨hred.sound.grouped, hred.tokens.trans ht⟩
      · cases he
  · rintro ⟨hg, rfl⟩
    exact parse_tokens hg

/-- An operator behind an expression takes all of it exactly when it parts nothing of it. -/
theorem parse_post_iff (he : e.Grouped ops) (hp : ops.post k = some p) :
    parse ops (e.tokens ++ [.op k]) = some (.post e k) ↔ e.precedes ops (some p) := by
  rw [parse_eq_some_iff]
  constructor
  · rintro ⟨⟨q, hq, -, hpre⟩, -⟩
    rw [hp] at hq
    cases hq
    exact hpre
  · exact fun hpre => ⟨⟨p, hp, he, hpre⟩, rfl⟩

/-- Weaker than all operators between two operands and behind one. -/
def Weakest (ops : Operators κ) (u : Int) : Prop :=
  (∀ k p, ops.prec k = some p → u < p) ∧ ∀ k p, ops.post k = some p → u < p

theorem follows_weakest (hw : Weakest ops u) (e : Expr α κ) : e.follows ops u := by
  induction e with
  | atom a => rfl
  | paren e ih => rfl
  | unary k e ih => rfl
  | post e k ih =>
    cases hp : ops.post k with
    | none => simp [Expr.follows, hp, ih]
    | some p => exact (follows_post hp u).mpr ⟨hw.2 k p hp, ih⟩
  | binary l k r ihl ihr =>
    cases hp : ops.prec k with
    | none => simp [Expr.follows, hp, ihl]
    | some p => exact (follows_binary hp u).mpr ⟨hw.1 k p hp, ihl⟩

theorem tokens_ne_nil (e : Expr α κ) : e.tokens ≠ [] := by
  cases e <;> simp [Expr.tokens]

theorem head_of_append {x : Token α κ} {us vs : List (Token α κ)} (hu : us ≠ [])
    (h : us ++ vs = x :: ts) : ∃ us', us = x :: us' := by
  cases us with
  | nil => exact absurd rfl hu
  | cons y us => exact ⟨us, by rw [(List.cons.inj h).1]⟩

/-- A text that begins with the weakest operator is read with that operator outermost. -/
theorem unary_of_tokens (hw : Weakest ops u) (hu : ops.unary k = some u) (he : e.Grouped ops)
    (ht : e.tokens = .op k :: ts) : ∃ body, e = .unary k body := by
  have hno (q : Int) (hq : u < q) (body : Expr α κ) : ¬ (Expr.unary k body).precedes ops (some q) := by
    rw [precedes_unary hu]
    exact fun h => Int.not_le.mpr hq (of_decide_eq_true h.1)
  induction e generalizing ts with
  | atom a => cases ht
  | paren e ih => cases ht
  | unary j e ih =>
    cases ht
    exact ⟨e, rfl⟩
  | post e j ih =>
    obtain ⟨p, hp, hg, hpre⟩ := he
    obtain ⟨ts', ht'⟩ := head_of_append (tokens_ne_nil e) ht
    obtain ⟨body, rfl⟩ := ih hg ht'
    exact absurd hpre (hno p (hw.2 j p hp) body)
  | binary l j r ihl ihr =>
    obtain ⟨p, hp, hg, -, hpre, -⟩ := he
    obtain ⟨ts', ht'⟩ := head_of_append (tokens_ne_nil l) ht
    obtain ⟨body, rfl⟩ := ihl hg ht'
    exact absurd hpre (hno p (hw.1 j p hp) body)

/-- The operand of the weakest operator is all that comes after it. -/
theorem parse_weakest (hw : Weakest ops u) (hu : ops.unary k = some u) :
    parse ops (.op k :: ts) = some e ↔ ∃ body, parse ops ts = some body ∧ e = .unary k body := by
  constructor
  · intro h
    obtain ⟨hg, ht⟩ := parse_eq_some_iff.mp h
    obtain ⟨body, rfl⟩ := unary_of_tokens hw hu hg ht
    obtain ⟨_, _, hgb, _⟩ := hg
    exact ⟨body, parse_eq_some_iff.mpr ⟨hgb, (List.cons.inj ht).2⟩, rfl⟩
  · rintro ⟨body, h, rfl⟩
    obtain ⟨hg, rfl⟩ := parse_eq_some_iff.mp h
    exact parse_eq_some_iff.mpr ⟨⟨u, hu, hg, follows_weakest hw body⟩, rfl⟩

/-- Operands with operators between them, put together from the left. -/
def Expr.chain (e : Expr α κ) (rest : List (κ × Expr α κ)) : Expr α κ :=
  rest.foldl (fun e x => .binary e x.1 x.2) e

def chainTokens (rest : List (κ × Expr α κ)) : List (Token α κ) := rest.flatMap fun x => .op x.1 :: x.2.tokens

/-- A grouped operand that no operator of the strength p on either side parts. -/
structure Operand (ops : Operators κ) (p : Int) (e : Expr α κ) : Prop where
  grouped : e.Grouped ops
  precedes : e.precedes ops (some p)
  follows : e.follows ops p

theorem tokens_chain (e : Expr α κ) (rest : List (κ × Expr α κ)) :
    (e.chain rest).tokens = e.tokens ++ chainTokens rest := by
  induction rest generalizing e with
  | nil => exact (List.append_nil _).symm
  | cons x rest ih =>
    refine (ih (.binary e x.1 x.2)).trans ?_
    simp [Expr.tokens, chainTokens]

theorem grouped_chain {rest : List (κ × Expr α κ)}
    (h : ∀ x ∈ rest, ops.prec x.1 = some p ∧ Operand ops p x.2) (he : e.Grouped ops)
    (hs : e.precedes ops (some p)) : (e.chain rest).Grouped ops := by
  induction rest generalizing e with
  | nil => exact he
  | cons x rest ih =>
    obtain ⟨hp, hx⟩ := h x List.mem_cons_self
    refine ih (fun y hy => h y (List.mem_cons_of_mem x hy)) ⟨p, hp, he, hx.grouped, hs, hx.follows⟩ ?_
    exact (precedes_binary hp).mpr ⟨decide_eq_true (Int.le_refl p), hx.precedes⟩

/-- Operators of one strength are taken from the left. -/
theorem parse_chain {rest : List (κ × Expr α κ)} (he : Operand ops p e)
    (h : ∀ x ∈ rest, ops.prec x.1 = some p ∧ Operand ops p x.2) :
    parse ops (e.tokens ++ chainTokens rest) = some (e.chain rest) := by
  rw [parse_eq_some_iff]
  exact ⟨grouped_chain h he.grouped he.precedes, tokens_chain e rest⟩

end Idula.Library.Precedence
