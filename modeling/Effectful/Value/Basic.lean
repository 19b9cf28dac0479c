import Effectful.Failure.Outcome
import Effectful.Number.Text
/-!
# Dynamic values

Data whose shape is known only when a program runs: the operands of operations that no vocabulary
knows, and the answers that a command shows.
-/
namespace Effectful

inductive Value
  | absent
  | null
  | bool (b : Bool)
  | number (x : Float)
  | text (s : String)
  | list (items : List Value)
  | record (fields : List (String × Value))
deriving Inhabited

namespace Value

mutual

/-- The plain text of a value. A record with a field `toString` has none, since that field is in the
place of its conversion, and neither has a list with such an item. -/
def plain? : Value → Option String
  | absent => some "undefined"
  | null => some "null"
  | bool b => some (if b then "true" else "false")
  | number x => some (Double.text x)
  | text s => some s
  | list items => (plainItems? items).map ",".intercalate
  | record fields => if fields.any (·.1 == "toString") then none else some "[object Object]"

/-- The plain texts of the items of a list, of which absent and null ones are empty. -/
def plainItems? : List Value → Option (List String)
  | [] => some []
  | absent :: rest | null :: rest => (plainItems? rest).map ("" :: ·)
  | item :: rest => (plain? item).bind fun s => (plainItems? rest).map (s :: ·)

end

/-- Values that have no plain text. -/
inductive Textless : Value → Prop
  | record {fields : List (String × Value)} {v : Value} (hmem : ("toString", v) ∈ fields) :
      Textless (record fields)
  | list {items : List Value} {item : Value} (hmem : item ∈ items) (h : Textless item) :
      Textless (list items)

theorem textless_record_iff {fields : List (String × Value)} :
    Textless (record fields) ↔ ∃ v, ("toString", v) ∈ fields :=
  ⟨fun h => by cases h with | record hmem => exact ⟨_, hmem⟩, fun ⟨_, hmem⟩ => .record hmem⟩

theorem textless_list_iff {items : List Value} :
    Textless (list items) ↔ ∃ item ∈ items, Textless item :=
  ⟨fun h => by cases h with | list hmem h => exact ⟨_, hmem, h⟩, fun ⟨_, hmem, h⟩ => .list hmem h⟩

mutual

theorem plain?_eq_none_iff : ∀ v : Value, v.plain? = none ↔ v.Textless
  | absent | null | bool _ | number _ | text _ => ⟨nofun, nofun⟩
  | list items => by
    rw [plain?, Option.map_eq_none_iff, plainItems?_eq_none_iff items, textless_list_iff]
  | record fields => by
    rw [plain?, textless_record_iff]
    simp

theorem plainItems?_eq_none_iff :
    ∀ items : List Value, plainItems? items = none ↔ ∃ item ∈ items, item.Textless
  | [] => by simp [plainItems?]
  | item :: rest => by
    have hitem := plain?_eq_none_iff item
    have hrest := plainItems?_eq_none_iff rest
    have hbind : ((plain? item).bind fun s => (plainItems? rest).map (s :: ·)) = none ↔
        item.Textless ∨ ∃ v ∈ rest, v.Textless := by
      rw [← hitem, ← hrest]
      cases plain? item <;> simp
    simp only [List.mem_cons, exists_eq_or_imp]
    cases item with
    | absent | null =>
      rw [plainItems?, Option.map_eq_none_iff, hrest]
      exact ⟨.inr, fun h => h.resolve_left nofun⟩
    | bool | number | text | list | record => exact hbind

end

def field? (name : String) : Value → Option Value
  | record fields => (fields.find? fun f => f.1 == name).map (·.2)
  | _ => none

/-- What an operation is reported under: its field `tag`, or the whole. -/
def tag (op : Value) : Value := (op.field? "tag").getD op

/-- The text of what an operation is reported under. -/
def tagText (op : Value) : Outcome String :=
  match op.tag.plain? with
  | some s => .ok s
  | none => .error (.foreign .noText)

end Value

end Effectful
