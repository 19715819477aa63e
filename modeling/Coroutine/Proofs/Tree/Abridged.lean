import Mathlib
import Coroutine.Tree.Document

/-!
# Abridged documents

The document of a tree spells out every field. A writer may leave out a field that holds what a
reader assumes when it is missing, anywhere in the document and any number of them. `Abridges` says
which documents come from another one in this way.

Which fields may be missing depends on where they stand: `null` for an absent branch may be left
out, but not `null` as the operand of a throw or as a constant, and a `kind` of a jump, but not that
of an exception. So `Abridges` follows the form of documents, given by the table `Entry.fields`.
-/

namespace Coroutine

/-- The records in the document of a tree. -/
inductive Entry where
  | assign | binary | unary | call | invoke | lambda | block | condition | switch | arm | loop
  | goto | label | target | tryCatch | handler | await

/-- What a part of the document of a tree is. -/
inductive Form where
  /-- A part in which nothing may be left out. -/
  | plain
  /-- An expression: an object with one field, named for its kind. -/
  | node
  /-- The fields of a record. -/
  | record (r : Entry)
  /-- An array. -/
  | items (f : Form)

/-- A field of a record. -/
structure Field where
  name : String
  form : Form
  /-- What the field holds when it is missing; `none` if it must be there. -/
  default? : Option Json

/-- The fields of the records, in the order in which they are written. -/
def Entry.fields : Entry → List Field
  | .assign => [⟨"target", .plain, none⟩, ⟨"value", .node, none⟩]
  | .binary => [⟨"op", .plain, none⟩, ⟨"left", .node, none⟩, ⟨"right", .node, none⟩]
  | .unary => [⟨"op", .plain, none⟩, ⟨"operand", .node, none⟩]
  | .call => [⟨"function", .plain, none⟩, ⟨"args", .items .node, some (.array [])⟩]
  | .invoke => [⟨"target", .node, none⟩, ⟨"args", .items .node, some (.array [])⟩]
  | .lambda =>
    [⟨"name", .plain, some .null⟩, ⟨"kind", .plain, some (.string "sync")⟩,
     ⟨"params", .plain, some (.array [])⟩, ⟨"body", .node, none⟩]
  | .block => [⟨"variables", .plain, some (.array [])⟩, ⟨"body", .items .node, none⟩]
  | .condition =>
    [⟨"test", .node, none⟩, ⟨"if_true", .node, none⟩, ⟨"if_false", .node, some .null⟩]
  | .switch =>
    [⟨"value", .node, none⟩, ⟨"cases", .items (.record .arm), none⟩,
     ⟨"default", .node, some .null⟩]
  | .arm => [⟨"test_values", .items .node, none⟩, ⟨"body", .node, none⟩]
  | .loop =>
    [⟨"body", .node, none⟩, ⟨"break_label", .record .target, some .null⟩,
     ⟨"continue_label", .record .target, some .null⟩]
  | .goto =>
    [⟨"kind", .plain, some (.string "goto")⟩, ⟨"target", .record .target, none⟩,
     ⟨"value", .node, some .null⟩]
  | .label => [⟨"target", .record .target, none⟩, ⟨"default", .node, some .null⟩]
  | .target => [⟨"id", .plain, none⟩, ⟨"name", .plain, some .null⟩]
  | .tryCatch =>
    [⟨"body", .node, none⟩, ⟨"handlers", .items (.record .handler), some (.array [])⟩,
     ⟨"finally", .node, some .null⟩]
  | .handler =>
    [⟨"filter", .plain, some (.string "any")⟩, ⟨"variable", .plain, some .null⟩,
     ⟨"body", .node, none⟩]
  | .await =>
    [⟨"awaitable", .node, none⟩, ⟨"awaitable_type", .plain, some (.string "Task")⟩,
     ⟨"configure_await", .plain, some (.bool true)⟩]

/-- The names of the fields of a record. -/
def Entry.names (r : Entry) : List String := r.fields.map Field.name

/-- What stands in a node of the named kind. -/
def Form.inside : String → Form
  | "assign" => .record .assign
  | "binary" => .record .binary
  | "unary" => .record .unary
  | "call" => .record .call
  | "invoke" => .record .invoke
  | "lambda" => .record .lambda
  | "block" => .record .block
  | "condition" => .record .condition
  | "switch" => .record .switch
  | "loop" => .record .loop
  | "goto" => .record .goto
  | "label" => .record .label
  | "try" => .record .tryCatch
  | "await" => .record .await
  | "throw" | "yield_return" => .node
  | _ => .plain

mutual

/-- `Abridges f j j'`: leaving out some fields that hold their defaults makes `j'` of `j`, which is
of the form `f`. -/
inductive Abridges : Form → Json → Json → Prop where
  | whole (f : Form) (j : Json) : Abridges f j j
  | node {kind : String} {j j' : Json} (h : Abridges (.inside kind) j j') :
    Abridges .node (.object [(kind, j)]) (.object [(kind, j')])
  | record {r : Entry} {fs fs' : List (String × Json)} (h : AbridgesFields r.fields fs fs') :
    Abridges (.record r) (.object fs) (.object fs')
  | items {f : Form} {js js' : List Json} (h : AbridgesItems f js js') :
    Abridges (.items f) (.array js) (.array js')

/-- `Abridges` for the fields of a record. -/
inductive AbridgesFields : List Field → List (String × Json) → List (String × Json) → Prop where
  | nil : AbridgesFields [] [] []
  | keep {a : Field} {as : List Field} {j j' : Json} {fs fs' : List (String × Json)}
    (h : Abridges a.form j j') (hs : AbridgesFields as fs fs') :
    AbridgesFields (a :: as) ((a.name, j) :: fs) ((a.name, j') :: fs')
  | leave {a : Field} {as : List Field} {j : Json} {fs fs' : List (String × Json)}
    (h : a.default? = some j) (hs : AbridgesFields as fs fs') :
    AbridgesFields (a :: as) ((a.name, j) :: fs) fs'

/-- `Abridges` for the items of an array. -/
inductive AbridgesItems : Form → List Json → List Json → Prop where
  | nil (f : Form) : AbridgesItems f [] []
  | cons {f : Form} {j j' : Json} {js js' : List Json} (h : Abridges f j j')
    (hs : AbridgesItems f js js') : AbridgesItems f (j :: js) (j' :: js')

end

namespace Abridges

variable {kind : String} {f : Form} {r : Entry} {j j' : Json} {js : List Json}
  {fs : List (String × Json)}

/-- A plain document has no brief form but itself. -/
theorem eq_of_plain (h : Abridges .plain j j') : j' = j := by
  cases h
  rfl

/-- An absent part has no fields. -/
theorem eq_null (h : Abridges f .null j') : j' = .null := by
  cases h
  rfl

/-- The brief form of a document that is not null is not null. -/
theorem ne_null (h : Abridges f j j') (hj : j ≠ .null) : j' ≠ .null := by
  rintro rfl
  cases h
  exact hj rfl

/-- The brief form of a node has the same kind. -/
theorem of_node (h : Abridges .node (.object [(kind, j)]) j') :
    ∃ j'', j' = .object [(kind, j'')] ∧ Abridges (.inside kind) j j'' := by
  cases h with
  | whole => exact ⟨j, rfl, .whole _ j⟩
  | node h => exact ⟨_, rfl, h⟩

/-- Items are a brief form of themselves. -/
theorem items_whole (f : Form) (js : List Json) : AbridgesItems f js js := by
  induction js with
  | nil => exact .nil f
  | cons j js ih => exact .cons (.whole f j) ih

/-- The brief form of an array is an array. -/
theorem of_items (h : Abridges (.items f) (.array js) j') :
    ∃ js', j' = .array js' ∧ AbridgesItems f js js' := by
  cases h with
  | whole => exact ⟨js, rfl, items_whole f js⟩
  | items h => exact ⟨_, rfl, h⟩

/-- Fields are a brief form of themselves. -/
theorem fields_whole : ∀ {as : List Field} {fs : List (String × Json)},
    fs.map Prod.fst = as.map Field.name → AbridgesFields as fs fs
  | [], [], _ => .nil
  | a :: as, (n, j) :: fs, h => by
    obtain ⟨rfl, hs⟩ := List.cons.inj h
    exact .keep (.whole a.form j) (fields_whole hs)

/-- The brief form of a record is a record. -/
theorem of_record (h : Abridges (.record r) (.object fs) j') (hn : fs.map Prod.fst = r.names) :
    ∃ fs', j' = .object fs' ∧ AbridgesFields r.fields fs fs' := by
  cases h with
  | whole => exact ⟨fs, rfl, fields_whole hn⟩
  | record h => exact ⟨_, rfl, h⟩

end Abridges

/-! ## Reading abridged records -/

/-- What a reader finds of a field that held `j`: a part less deep than `room`, or nothing. -/
inductive Found (room : Nat) (a : Field) (j : Json) : Option Json → Prop where
  | kept {j' : Json} (h : Abridges a.form j j') (hroom : j'.depth < room) : Found room a j (some j')
  | left (h : a.default? = some j) : Found room a j none

/-- What a reader finds of the fields of a record. -/
inductive FoundAll (room : Nat) : List Field → List (String × Json) → List (Option Json) → Prop where
  | nil : FoundAll room [] [] []
  | cons {a : Field} {as : List Field} {j : Json} {fs : List (String × Json)} {o : Option Json}
    {os : List (Option Json)} (h : Found room a j o) (hs : FoundAll room as fs os) :
    FoundAll room (a :: as) ((a.name, j) :: fs) (o :: os)

/-- A field is found with more room as well. -/
theorem Found.mono {room room' : Nat} {a : Field} {j : Json} {o : Option Json}
    (h : Found room a j o) (hroom : room ≤ room') : Found room' a j o := by
  cases h with
  | kept h hj => exact .kept h (by omega)
  | left h => exact .left h

/-- Fields are found with more room as well. -/
theorem FoundAll.mono {room room' : Nat} {as : List Field} {fs : List (String × Json)}
    {os : List (Option Json)} (h : FoundAll room as fs os) (hroom : room ≤ room') :
    FoundAll room' as fs os := by
  induction h with
  | nil => exact .nil
  | cons h _ ih => exact .cons (h.mono hroom) ih

namespace Json

/-- Fields of other names do not matter. -/
theorem field?_cons_of_ne {fs : List (String × Json)} {n n' : String} {j : Json} (h : n ≠ n') :
    field? ((n, j) :: fs) n' = field? fs n' := by
  simp [field?, h]

/-- A name that no field has is not found. -/
theorem filter_of_notMem {fs : List (String × Json)} {n : String} (h : n ∉ fs.map Prod.fst) :
    fs.filter (·.1 == n) = [] := by
  rw [List.filter_eq_nil_iff]
  intro x hx heq
  exact h (List.mem_map.2 ⟨x, hx, by simpa using heq⟩)

/-- A field that is missing is missing. -/
theorem field?_of_notMem {fs : List (String × Json)} {n : String} (h : n ∉ fs.map Prod.fst) :
    field? fs n = some none := by
  simp [field?, filter_of_notMem h]

/-- A field that is there is found. -/
theorem field?_cons_self {fs : List (String × Json)} {n : String} (j : Json)
    (h : n ∉ fs.map Prod.fst) : field? ((n, j) :: fs) n = some (some j) := by
  simp [field?, filter_of_notMem h]

/-- A field does not disturb the reading of others. -/
theorem mapM_field?_cons {fs : List (String × Json)} {n : String} {j : Json} {names : List String}
    (h : n ∉ names) : names.mapM (field? ((n, j) :: fs)) = names.mapM (field? fs) := by
  induction names with
  | nil => rfl
  | cons m names ih =>
    rw [List.mem_cons, not_or] at h
    rw [List.mapM_cons, List.mapM_cons, field?_cons_of_ne h.1, ih h.2]

end Json

namespace AbridgesFields

variable {as : List Field} {fs fs' : List (String × Json)}

/-- What is left out leaves the others in their order. -/
theorem names_sublist (h : AbridgesFields as fs fs') :
    (fs'.map Prod.fst).Sublist (as.map Field.name) := by
  induction fs generalizing as fs' with
  | nil =>
    cases h
    exact .slnil
  | cons f fs ih =>
    cases h with
    | keep _ hs => exact (ih hs).cons_cons _
    | leave _ hs => exact (ih hs).cons _

/-- Every field is found where it was kept, and no other in its place. -/
theorem found (h : AbridgesFields as fs fs') (hnodup : (as.map Field.name).Nodup) :
    ∃ os, (as.map Field.name).mapM (Json.field? fs') = some os ∧
      FoundAll (1 + Json.fieldsDepth fs') as fs os := by
  induction fs generalizing as fs' with
  | nil =>
    cases h
    exact ⟨[], rfl, .nil⟩
  | cons f fs ih =>
    cases h with
    | @keep a as j j' _ fs' h hs =>
      obtain ⟨hfresh, hnodup⟩ := List.nodup_cons.1 hnodup
      obtain ⟨os, hread, hos⟩ := ih hs hnodup
      have hself := Json.field?_cons_self j' fun hmem => hfresh (hs.names_sublist.mem hmem)
      refine ⟨some j' :: os, ?_, .cons (.kept h ?_) (hos.mono ?_)⟩
      · rw [List.map_cons, List.mapM_cons, hself, Json.mapM_field?_cons hfresh, hread]
        rfl
      · rw [Json.fieldsDepth]
        omega
      · rw [Json.fieldsDepth]
        omega
    | @leave a as j _ _ h hs =>
      obtain ⟨hfresh, hnodup⟩ := List.nodup_cons.1 hnodup
      obtain ⟨os, hread, hos⟩ := ih hs hnodup
      have hnone := Json.field?_of_notMem fun hmem => hfresh (hs.names_sublist.mem hmem)
      refine ⟨none :: os, ?_, .cons (.left h) hos⟩
      rw [List.map_cons, List.mapM_cons, hnone, hread]
      rfl

end AbridgesFields

/-- The fields of a record have different names. -/
theorem Entry.nodup_names (r : Entry) : r.names.Nodup := by
  cases r <;> decide

/-- A record from which fields were left out can be read. -/
theorem Abridges.found {r : Entry} {fs : List (String × Json)} {j' : Json}
    (h : Abridges (.record r) (.object fs) j') (hn : fs.map Prod.fst = r.names) :
    ∃ os, j'.record? r.names = some os ∧ FoundAll j'.depth r.fields fs os := by
  obtain ⟨fs', rfl, hfields⟩ := h.of_record hn
  exact hfields.found r.nodup_names

end Coroutine
