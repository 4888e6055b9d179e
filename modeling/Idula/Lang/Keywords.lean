import Idula.Library.Vocabulary
import Idula.Zig.Bytes

/-! The keyword type names of keyword/type.zig and the literal words of value.zig, each with
its fromStr, and the words on which each fromStr is right. -/
namespace Idula.Lang
open Zig Library

inductive BuiltinType where
  | seq | time | set | maybe | result | either | unknown | undef
  deriving DecidableEq, Repr

inductive CollectionType where
  | map | idxMap | queue | linkedList | btree | bptree | graph
  deriving DecidableEq, Repr

inductive AbstractType where
  | trait | quality | approximality | implementation | constraint | capability | abstraction | field
  | representation | generalization | taxonomy | env | type | prop | attribute_ | custom | concept
  deriving DecidableEq, Repr

/-- The tags of the union TextValues. -/
inductive TextValues where
  | some | none | true | false | err | ok | now
  deriving DecidableEq, Repr

def BuiltinType.tagName : BuiltinType → Str
  | .seq => lit "seq"
  | .time => lit "time"
  | .set => lit "set"
  | .maybe => lit "maybe"
  | .result => lit "result"
  | .either => lit "either"
  | .unknown => lit "unknown"
  | .undef => lit "undef"

def CollectionType.tagName : CollectionType → Str
  | .map => lit "map"
  | .idxMap => lit "idx_map"
  | .queue => lit "queue"
  | .linkedList => lit "linked_list"
  | .btree => lit "btree"
  | .bptree => lit "bptree"
  | .graph => lit "graph"

def AbstractType.tagName : AbstractType → Str
  | .trait => lit "trait"
  | .quality => lit "quality"
  | .approximality => lit "approximality"
  | .implementation => lit "implementation"
  | .constraint => lit "constraint"
  | .capability => lit "capability"
  | .abstraction => lit "abstraction"
  | .field => lit "field"
  | .representation => lit "representation"
  | .generalization => lit "generalization"
  | .taxonomy => lit "taxonomy"
  | .env => lit "env"
  | .type => lit "type"
  | .prop => lit "prop"
  | .attribute_ => lit "attribute"
  | .custom => lit "custom"
  | .concept => lit "concept"

def TextValues.tagName : TextValues → Str
  | .some => lit "some"
  | .none => lit "none"
  | .true => lit "true"
  | .false => lit "false"
  | .err => lit "err"
  | .ok => lit "ok"
  | .now => lit "now"

def BuiltinType.words : Vocabulary BuiltinType Str where
  members := [.seq, .time, .set, .maybe, .result, .either, .unknown, .undef]
  name := tagName
  mem_members v := by cases v <;> decide
  nodup_names := by decide

def CollectionType.words : Vocabulary CollectionType Str where
  members := [.map, .idxMap, .queue, .linkedList, .btree, .bptree, .graph]
  name := tagName
  mem_members v := by cases v <;> decide
  nodup_names := by decide

def AbstractType.words : Vocabulary AbstractType Str where
  members :=
    [.trait, .quality, .approximality, .implementation, .constraint, .capability, .abstraction, .field,
     .representation, .generalization, .taxonomy, .env, .type, .prop, .attribute_, .custom, .concept]
  name := tagName
  mem_members v := by cases v <;> decide
  nodup_names := by decide

def TextValues.words : Vocabulary TextValues Str where
  members := [.some, .none, .true, .false, .err, .ok, .now]
  name := tagName
  mem_members v := by cases v <;> decide
  nodup_names := by decide

/-- A field descriptor where a string is due: its name, or nothing that equals a string.
TextValues.fromStr compares the descriptor itself, and both readings are kept. -/
inductive FieldText where
  | name
  | descriptor
  deriving DecidableEq

def FieldText.text {E : Type} (read : FieldText) (words : Vocabulary E Str) (field : E) : Option Str :=
  match read with
  | .name => some (words.name field)
  | .descriptor => none

private theorem text_sound {E : Type} (words : Vocabulary E Str) (read : FieldText) (field : E) (s : Str)
    (h : read.text words field = some s) : s = words.name field := by
  cases read with
  | name => exact (Option.some_inj.mp h).symm
  | descriptor => cases h

/-- The public declarations of KwType, a tagged union of fields alone. -/
def KwType.declarations : List Str := []

/-- std.enums.valuesFromFields: the members of the given names. -/
def valuesFromFields {E : Type} (words : Vocabulary E Str) (fields : List Str) : List E :=
  fields.filterMap (Vocabulary.scan (FieldText.name.text words) words.members)

theorem mem_valuesFromFields {E : Type} {words : Vocabulary E Str} {fields : List Str} {v : E} :
    v ∈ valuesFromFields words fields ↔ words.name v ∈ fields := by
  simp only [valuesFromFields, List.mem_filterMap, Vocabulary.scan_eq_some_iff (text_sound words .name)]
  constructor
  · rintro ⟨s, hs, -, hv⟩
    exact Option.some_inj.mp hv ▸ hs
  · intro hs
    exact ⟨words.name v, hs, words.mem_members v, rfl⟩

def BuiltinType.fromStr (s : Str) : Option BuiltinType :=
  Vocabulary.scan (FieldText.name.text words) (valuesFromFields words KwType.declarations) s

/-- Every string takes the else of the switch. -/
def CollectionType.fromStr : Str → CollectionType
  | _ => .map

/-- The loop over std.meta.fields(AbstractType), by @tagName; a null it returns is no match. -/
def AbstractType.fromStr (s : Str) : Option AbstractType :=
  Vocabulary.scan (FieldText.name.text words) words.members s

def TextValues.fromStr (read : FieldText) (s : Str) : Option TextValues :=
  Vocabulary.scan (read.text words) words.members s

/-- The four keyword vocabularies. -/
inductive Keywords where
  | builtinType | abstractType | collectionType | textValues
  deriving DecidableEq

namespace Keywords

def Member : Keywords → Type
  | .builtinType => BuiltinType
  | .abstractType => AbstractType
  | .collectionType => CollectionType
  | .textValues => TextValues

def words : (k : Keywords) → Vocabulary k.Member Str
  | .builtinType => BuiltinType.words
  | .abstractType => AbstractType.words
  | .collectionType => CollectionType.words
  | .textValues => TextValues.words

def fromStr (read : FieldText) : (k : Keywords) → Str → Option k.Member
  | .builtinType, s => BuiltinType.fromStr s
  | .abstractType, s => AbstractType.fromStr s
  | .collectionType, s => some (CollectionType.fromStr s)
  | .textValues, s => TextValues.fromStr read s

variable {k : Keywords} {read : FieldText} {s : Str}

/-- On s, fromStr returns exactly the member that s names and otherwise no match. -/
def Recognises (read : FieldText) (k : Keywords) (s : Str) : Prop :=
  k.words.RecognisedAt (k.fromStr read) s

/-- The words on which each of the four is right. -/
def RightOn (read : FieldText) : Keywords → Str → Prop
  | .builtinType, s => ∀ v : BuiltinType, s ≠ v.tagName
  | .abstractType, _ => True
  | .collectionType, s => s = CollectionType.map.tagName
  | .textValues, s => read = .name ∨ ∀ v : TextValues, s ≠ v.tagName

/-- The loop goes through the declarations of another type, and there are none. -/
theorem builtinType_recognises_iff :
    BuiltinType.words.RecognisedAt BuiltinType.fromStr s ↔ ∀ v : BuiltinType, s ≠ v.tagName := by
  refine Vocabulary.recognisedAt_scan_iff_of_unseen (text_sound _ _) fun v hv => ?_
  exact absurd (mem_valuesFromFields.mp hv) List.not_mem_nil

/-- A loop over all the fields by their names is right everywhere. -/
private theorem recognisedAt_fields {E : Type} (words : Vocabulary E Str) (s : Str) :
    words.RecognisedAt (Vocabulary.scan (FieldText.name.text words) words.members) s := by
  rw [Vocabulary.recognisedAt_scan_iff (text_sound _ _)]
  rintro v rfl
  exact ⟨words.mem_members v, rfl⟩

theorem collectionType_recognises_iff :
    CollectionType.words.RecognisedAt (fun s => some (CollectionType.fromStr s)) s ↔
      s = CollectionType.map.tagName :=
  Vocabulary.recognisedAt_total_iff

theorem textValues_recognises_iff :
    TextValues.words.RecognisedAt (TextValues.fromStr read) s ↔
      read = .name ∨ ∀ v : TextValues, s ≠ v.tagName := by
  cases read with
  | name => exact iff_of_true (recognisedAt_fields _ s) (Or.inl rfl)
  | descriptor =>
    rw [or_iff_right (by decide)]
    exact Vocabulary.recognisedAt_scan_iff_of_unseen (text_sound _ _) fun _ _ h => nomatch h

/-- BuiltinType misses all its words, AbstractType none, CollectionType takes every string for
map, and TextValues misses none or, if no descriptor equals a string, all its words. -/
theorem recognises_iff (read : FieldText) (k : Keywords) (s : Str) :
    Recognises read k s ↔ RightOn read k s := by
  cases k with
  | builtinType => exact builtinType_recognises_iff
  | abstractType => exact iff_of_true (recognisedAt_fields _ s) trivial
  | collectionType => exact collectionType_recognises_iff
  | textValues => exact textValues_recognises_iff

/-- A queue is taken for a map, however descriptors read. -/
theorem queue_taken_for_map :
    ¬ Recognises .name .collectionType (lit "queue") ∧
      ¬ Recognises .descriptor .collectionType (lit "queue") := by
  constructor <;>
  · intro h
    have hm : some CollectionType.map = some CollectionType.queue := (h.returns_iff .queue).mpr rfl
    cases hm

/-- The vocabularies whose fromStr is the inverse of the naming of their members. -/
theorem isPartialInv_fromStr_iff (read : FieldText) (k : Keywords) :
    Function.IsPartialInv k.words.name (k.fromStr read) ↔
      k = .abstractType ∨ k = .textValues ∧ read = .name := by
  rw [← Vocabulary.forall_recognisedAt_iff]
  cases k with
  | builtinType =>
    refine iff_of_false (fun h => ?_) (by simp)
    exact builtinType_recognises_iff.mp (h (lit "seq")) .seq rfl
  | abstractType => exact iff_of_true (recognisedAt_fields _) (Or.inl rfl)
  | collectionType =>
    refine iff_of_false (fun h => ?_) (by simp)
    exact absurd (collectionType_recognises_iff.mp (h (lit "queue"))) (by decide)
  | textValues =>
    cases read with
    | name => exact iff_of_true (recognisedAt_fields _) (Or.inr ⟨rfl, rfl⟩)
    | descriptor =>
      refine iff_of_false (fun h => ?_) (by decide)
      obtain hr | hn := textValues_recognises_iff.mp (h (lit "some"))
      · cases hr
      · exact hn .some rfl

/-- There is one string on which all four are right. -/
theorem forall_recognises_iff : (∀ k, Recognises read k s) ↔ s = CollectionType.map.tagName := by
  constructor
  · intro h
    exact collectionType_recognises_iff.mp (h .collectionType)
  · rintro rfl k
    cases k with
    | builtinType => exact builtinType_recognises_iff.mpr fun v => by cases v <;> decide
    | abstractType => exact recognisedAt_fields _ _
    | collectionType => exact collectionType_recognises_iff.mpr rfl
    | textValues => exact textValues_recognises_iff.mpr (Or.inr fun v => by cases v <;> decide)

end Keywords
end Idula.Lang
