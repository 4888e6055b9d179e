import Idula.Zig.Bytes
import Idula.Library.Overlay

/-! The repl loop: one buffer that every read fills from its start, and a history of
slices of that buffer. -/
namespace Idula.Cli.Repl
open Zig Library.Overlay

def bufLen : Nat := 512

/-- What one stdin.read(&buf) delivers; nothing at the end of the input. -/
structure Read where
  bytes : Str
  fits : bytes.length ≤ bufLen
  deriving DecidableEq

/-- The contents of buf. -/
structure Buf where
  bytes : Str
  full : bytes.length = bufLen

def Buf.fill (b : Buf) (r : Read) : Buf where
  bytes := overlay r.bytes b.bytes
  full := (overlay_length (b.full ▸ r.fits)).trans b.full

/-- The slice buf[0..len]: its bytes are those of the buffer at the time of the look. -/
structure Slice where
  len : Nat
  within : len ≤ bufLen

def Slice.view (s : Slice) (b : Buf) : Str := b.bytes.take s.len

structure State where
  buf : Buf
  hist : List Slice
  out : List Str

/-- The loop is entered with an undefined buffer. -/
def start (buf : Buf) : State := ⟨buf, [], []⟩

/-- One iteration of the loop. -/
def step (st : State) (r : Read) : State :=
  let out := st.out ++ [lit ":idlang:> "]
  let buf := st.buf.fill r
  let read := r.bytes.length
  if read = bufLen then
    { st with buf, out := out ++ [lit "Over 512 bytes"] }
  else
    let inp : Slice := ⟨read, r.fits⟩
    { buf, hist := st.hist ++ [inp], out := out ++ [inp.view buf] }

/-- The state of repl after a finite sequence of reads. -/
def repl (buf : Buf) (rs : List Read) : State := rs.foldl step (start buf)

/-- The reads that pass the test of read against buf.len. -/
def Accepted (r : Read) : Prop := r.bytes.length ≠ bufLen

instance (r : Read) : Decidable (Accepted r) := inferInstanceAs (Decidable (_ ≠ _))

/-- The bytes of the accepted reads, in order. -/
def accepted (rs : List Read) : List Str := (rs.filter (Accepted ·)).map Read.bytes

/-- What hist shows. -/
def seen (st : State) : List Str := st.hist.map (·.view st.buf)

/-- What the entries that an iteration appends show at its end. -/
def appended (st : State) (r : Read) : List Str := (seen (step st r)).drop st.hist.length

/-- What each entry showed at the end of the iteration that appended it. -/
def recorded : State → List Read → List Str
  | _, [] => []
  | st, r :: rs => appended st r ++ recorded (step st r) rs

variable {st : State} {r : Read} {rs us : List Read} {b : Buf}

@[simp] theorem fill_bytes : (b.fill r).bytes = overlay r.bytes b.bytes := rfl

/-- The slice of the current read shows the read itself. -/
theorem view_fill : (⟨r.bytes.length, r.fits⟩ : Slice).view (b.fill r) = r.bytes :=
  take_overlay r.bytes b.bytes

theorem step_accepted (h : Accepted r) :
    step st r = ⟨st.buf.fill r, st.hist ++ [⟨r.bytes.length, r.fits⟩],
      st.out ++ [lit ":idlang:> ", r.bytes]⟩ := by
  have hs : step st r = ⟨st.buf.fill r, st.hist ++ [⟨r.bytes.length, r.fits⟩],
      st.out ++ [lit ":idlang:> "] ++ [Slice.view ⟨r.bytes.length, r.fits⟩ (st.buf.fill r)]⟩ :=
    if_neg h
  rw [hs, view_fill, List.append_assoc]
  rfl

theorem step_rejected (h : ¬ Accepted r) :
    step st r = ⟨st.buf.fill r, st.hist, st.out ++ [lit ":idlang:> ", lit "Over 512 bytes"]⟩ := by
  have hs : step st r = ⟨st.buf.fill r, st.hist,
      st.out ++ [lit ":idlang:> "] ++ [lit "Over 512 bytes"]⟩ := if_pos (not_not.mp h)
  rw [hs, List.append_assoc]
  rfl

@[simp] theorem step_buf : (step st r).buf = st.buf.fill r := by
  by_cases h : Accepted r
  · rw [step_accepted h]
  · rw [step_rejected h]

@[simp] theorem accepted_append : accepted (rs ++ us) = accepted rs ++ accepted us := by
  simp only [accepted, List.filter_append, List.map_append]

theorem accepted_one (h : Accepted r) : accepted [r] = [r.bytes] := by
  simp [accepted, h]

theorem accepted_none (h : ¬ Accepted r) : accepted [r] = [] := by
  simp [accepted, h]

/-- An iteration appends the bytes it read, when it accepts them. -/
theorem appended_eq : appended st r = accepted [r] := by
  by_cases h : Accepted r
  · rw [appended, step_accepted h, accepted_one h]
    simp [seen, view_fill]
  · rw [appended, step_rejected h, accepted_none h]
    simp [seen]

/-- At the end of its own iteration every entry shows the accepted read. -/
theorem recorded_eq : recorded st rs = accepted rs := by
  induction rs generalizing st with
  | nil => rfl
  | cons r rs ih =>
    rw [recorded, appended_eq, ih, ← accepted_append]
    rfl

theorem repl_concat : repl b (rs ++ [r]) = step (repl b rs) r := by
  simp [repl]

/-- The buffer holds all the reads, laid over one another. -/
theorem repl_buf : (repl b rs).buf.bytes = overlays b.bytes (rs.map Read.bytes) := by
  induction rs using List.reverseRecOn with
  | nil => rfl
  | append_singleton rs r ih =>
    rw [repl_concat, step_buf, fill_bytes, ih, List.map_append, List.map_singleton,
      overlays_concat]

/-- The history holds the lengths of the accepted reads. -/
theorem repl_hist : (repl b rs).hist.map Slice.len = (accepted rs).map List.length := by
  induction rs using List.reverseRecOn with
  | nil => rfl
  | append_singleton rs r ih =>
    rw [repl_concat, accepted_append, List.map_append, ← ih]
    by_cases h : Accepted r
    · rw [step_accepted h, accepted_one h]
      simp
    · rw [step_rejected h, accepted_none h]
      simp

/-- Through hist one sees the front of the buffer at the accepted lengths. -/
theorem seen_repl : seen (repl b rs) =
    (accepted rs).map fun a => (overlays b.bytes (rs.map Read.bytes)).take a.length := by
  have hv : seen (repl b rs) =
      ((repl b rs).hist.map Slice.len).map fun n => (repl b rs).buf.bytes.take n := by
    rw [List.map_map]
    rfl
  rw [hv, repl_hist, repl_buf, List.map_map]
  rfl

/-- The echo of every iteration, whatever the later reads do to the buffer. -/
theorem repl_out : (repl b rs).out = rs.flatMap fun r =>
    [lit ":idlang:> ", if Accepted r then r.bytes else lit "Over 512 bytes"] := by
  induction rs using List.reverseRecOn with
  | nil => rfl
  | append_singleton rs r ih =>
    rw [repl_concat, List.flatMap_append, ← ih]
    by_cases h : Accepted r
    · rw [step_accepted h]
      simp [h]
    · rw [step_rejected h]
      simp [h]

end Idula.Cli.Repl
