import Idula.Cli.Repl

/-! What the repl loop records of a byte stream that the operating system delivers in
pieces, against the lines of the stream. -/
namespace Idula.Cli.ReplFraming
open Zig Repl
variable {b : Buf} {rs : List Read} {stream : Str}

def newline : UInt8 := 10

/-- The lines of a stream, each with its newline. -/
def lines : Str → List Str
  | [] => []
  | c :: s =>
    if c = newline then [c] :: lines s
    else
      match lines s with
      | [] => [[c]]
      | l :: ls => (c :: l) :: ls

/-- The lines that fit the buffer. -/
def shortLines (stream : Str) : List Str := (lines stream).filter (·.length ≤ bufLen)

/-- A way to split the stream into reads. -/
structure Delivery (stream : Str) where
  reads : List Read
  something : ∀ r ∈ reads, r.bytes ≠ []
  whole : (reads.map Read.bytes).flatten = stream

/-- A read at the end of the input. -/
def eof : Read := ⟨[], Nat.zero_le _⟩

/-- The loop records the lines that fit, each once and in order, and nothing at the end
of the input, however often it reads there. -/
def Framed (b : Buf) (stream : Str) (d : Delivery stream) : Prop :=
  ∀ m, recorded (start b) (d.reads ++ List.replicate m eof) = shortLines stream

/-- Every read at the end of the input is recorded as an empty entry. -/
theorem recorded_eof (rs : List Read) (m : Nat) :
    recorded (start b) (rs ++ List.replicate m eof) = accepted rs ++ List.replicate m [] := by
  rw [recorded_eq, accepted_append]
  induction m with
  | zero => rfl
  | succ m ih =>
    have hone : accepted [eof] = [[]] := accepted_one (by decide)
    rw [List.replicate_succ', List.replicate_succ', accepted_append, hone, ← List.append_assoc,
      ← List.append_assoc, ih]

/-- No stream is framed as it should be: at the end of the input the history grows. -/
theorem not_framed (b : Buf) (stream : Str) (d : Delivery stream) : ¬ Framed b stream d := by
  intro h
  have hlength (m : Nat) : (accepted d.reads).length + m = (shortLines stream).length := by
    rw [← h m, recorded_eof, List.length_append, List.length_replicate]
  have hzero := hlength 0
  have hone := hlength 1
  omega

/-- The line is recorded, and an empty entry after it. -/
theorem empty_entry_after_line :
    ¬ Framed ⟨List.replicate 512 0xAA, List.length_replicate⟩ (lit "a\n")
      ⟨[⟨lit "a\n", by decide⟩], by decide, by decide⟩ := by
  intro h
  have hone := h 1
  rw [recorded_eof] at hone
  exact absurd hone (by decide)

/-- A line of exactly 512 bytes is never recorded, nor anything else of that length. -/
theorem recorded_lt {e : Str} (h : e ∈ recorded (start b) rs) : e.length < bufLen := by
  rw [recorded_eq] at h
  obtain ⟨r, hr, rfl⟩ := List.mem_map.mp h
  have ha : Accepted r := of_decide_eq_true (List.mem_filter.mp hr).2
  exact Nat.lt_of_le_of_ne r.fits ha

/-- Two deliveries of one stream are told apart in the history. -/
theorem delivery_shows (b : Buf) (h1 : 1 < stream.length) (h2 : stream.length < bufLen) :
    ∃ d d' : Delivery stream, recorded (start b) d.reads ≠ recorded (start b) d'.reads := by
  match stream, h1, h2 with
  | x :: y :: s, _, h2 =>
    let r : Read := ⟨x :: y :: s, h2.le⟩
    let head : Read := ⟨[x], show 1 ≤ bufLen by decide⟩
    let tail : Read := ⟨y :: s, (Nat.lt_succ_self _).le.trans h2.le⟩
    have hr : Accepted r := h2.ne
    have hhead : Accepted head := show 1 ≠ bufLen by decide
    have htail : Accepted tail := ((Nat.lt_succ_self _).trans h2).ne
    refine ⟨⟨[r], by simp [r], by simp [r]⟩, ⟨[head, tail], by simp [head, tail], by simp [head, tail]⟩, ?_⟩
    have hsplit : accepted ([head] ++ [tail]) = [[x], y :: s] := by
      rw [accepted_append, accepted_one hhead, accepted_one htail]
      rfl
    rw [recorded_eq, recorded_eq, accepted_one hr]
    exact fun he => absurd (he.trans hsplit) (by simp)

/-- A line: a newline, and none before it. -/
def Line (l : Str) : Prop := ∃ t, newline ∉ t ∧ l = t ++ [newline]

theorem lines_cons_line {l : Str} (h : Line l) (s : Str) : lines (l ++ s) = l :: lines s := by
  obtain ⟨t, ht, rfl⟩ := h
  induction t with
  | nil => simp [lines]
  | cons c t ih =>
    obtain ⟨hc, ht⟩ := not_or.mp (List.mem_cons.not.mp ht)
    rw [List.cons_append, List.cons_append, lines, if_neg (Ne.symm hc), ih ht]

theorem lines_flatten {ls : List Str} (h : ∀ l ∈ ls, Line l) : lines ls.flatten = ls := by
  induction ls with
  | nil => rfl
  | cons l ls ih =>
    rw [List.flatten_cons, lines_cons_line (h l List.mem_cons_self),
      ih fun x hx => h x (List.mem_cons_of_mem l hx)]

example : lines (lit "let a\n\nb") = [lit "let a\n", lit "\n", lit "b"] := by decide

/-- Up to the end of the input, reads that are lines shorter than the buffer are framed. -/
theorem recorded_of_lines {d : Delivery stream}
    (h : ∀ r ∈ d.reads, Line r.bytes ∧ Accepted r) :
    recorded (start b) d.reads = shortLines stream := by
  have hlines : lines stream = d.reads.map Read.bytes := by
    refine (congrArg lines d.whole).symm.trans (lines_flatten ?_)
    intro l hl
    obtain ⟨r, hr, rfl⟩ := List.mem_map.mp hl
    exact (h r hr).1
  have hkeep : d.reads.filter (Accepted ·) = d.reads :=
    List.filter_eq_self.mpr fun r hr => decide_eq_true (h r hr).2
  have hshort : shortLines stream = lines stream := by
    apply List.filter_eq_self.mpr
    intro l hl
    rw [hlines] at hl
    obtain ⟨r, _, rfl⟩ := List.mem_map.mp hl
    exact decide_eq_true r.fits
  rw [recorded_eq, accepted, hkeep, hshort, hlines]

end Idula.Cli.ReplFraming
