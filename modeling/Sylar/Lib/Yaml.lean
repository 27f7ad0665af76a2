import Mathlib.Data.Nat.Notation
import Mathlib.Data.List.Basic

/-!
# Node trees of YAML documents

A document is the tree of its nodes: null, a scalar with its text, a sequence, or a map
whose keys are nodes as well. `preorder` lists the nodes below a path of keys, a map
before its entries.
-/

namespace Yaml

/-- The text of a scalar, as bytes. -/
abbrev Text := List UInt8

/-- A node with everything below it. -/
inductive Node where
  | null
  | scalar (text : Text)
  | sequence (items : List Node)
  | map (entries : List (Node × Node))

namespace Node

/-- The text of a scalar; it is empty for every other node. -/
def scalarText : Node → Text
  | scalar text => text
  | _ => []

mutual

/-- The nodes of a tree with the keys that lead to them, in pre-order. Only the entries
of maps are descended into. -/
def preorder (path : List Text) : Node → List (List Text × Node)
  | map entries => (path, map entries) :: preorderEntries path entries
  | null => [(path, null)]
  | scalar text => [(path, scalar text)]
  | sequence items => [(path, sequence items)]
termination_by structural node => node

/-- The nodes below the entries of a map. -/
def preorderEntries (path : List Text) : List (Node × Node) → List (List Text × Node)
  | [] => []
  | (key, value) :: rest =>
    preorder (path ++ [key.scalarText]) value ++ preorderEntries path rest
termination_by structural entries => entries

end

/-- Every key of a map is a scalar with a text. -/
inductive NamedKeys : Node → Prop
  | null : NamedKeys null
  | scalar (text : Text) : NamedKeys (scalar text)
  | sequence (items : List Node) : NamedKeys (sequence items)
  | map {entries : List (Node × Node)} (keys : ∀ e ∈ entries, ∃ text ≠ [], e.1 = .scalar text)
    (values : ∀ e ∈ entries, NamedKeys e.2) : NamedKeys (map entries)

/-- A node that is not a map is the only one of its tree. -/
theorem preorder_leaf (path : List Text) {node : Node} (leaf : ∀ entries, node ≠ map entries) :
    preorder path node = [(path, node)] := by
  cases node with
  | map entries => exact absurd rfl (leaf entries)
  | null => rw [preorder]
  | scalar text => rw [preorder]
  | sequence items => rw [preorder]

mutual

/-- The path that a tree is under stands in front of every path of it. -/
theorem prefix_of_mem_preorder (path : List Text) : (node : Node) →
    ∀ entry ∈ preorder path node, path <+: entry.1
  | map entries => by
    intro entry inTree
    rw [preorder, List.mem_cons] at inTree
    rcases inTree with rfl | below
    · exact List.prefix_rfl
    · exact prefix_of_mem_preorderEntries path entries entry below
  | null => by simp [preorder]
  | scalar text => by simp [preorder]
  | sequence items => by simp [preorder]

theorem prefix_of_mem_preorderEntries (path : List Text) : (entries : List (Node × Node)) →
    ∀ entry ∈ preorderEntries path entries, path <+: entry.1
  | [] => by simp [preorderEntries]
  | (key, value) :: rest => by
    intro entry inTree
    rw [preorderEntries, List.mem_append] at inTree
    rcases inTree with below | later
    · exact (List.prefix_append path _).trans
        (prefix_of_mem_preorder (path ++ [key.scalarText]) value entry below)
    · exact prefix_of_mem_preorderEntries path rest entry later

end

mutual

/-- Where all keys have a text, no path has an empty one. -/
theorem not_mem_of_mem_preorder {path : List Text} : {node : Node} → (named : NamedKeys node) →
    [] ∉ path → ∀ entry ∈ preorder path node, [] ∉ entry.1
  | .map entries, named, above => by
    intro entry inTree
    obtain ⟨keys, values⟩ : (∀ e ∈ entries, ∃ text ≠ [], e.1 = .scalar text) ∧
        ∀ e ∈ entries, NamedKeys e.2 := by
      cases named with
      | map keys values => exact ⟨keys, values⟩
    rw [preorder, List.mem_cons] at inTree
    rcases inTree with rfl | below
    · exact above
    · exact not_mem_of_mem_preorderEntries keys values above entry below
  | .null, _, above => by simpa [preorder] using above
  | .scalar text, _, above => by simpa [preorder] using above
  | .sequence items, _, above => by simpa [preorder] using above

theorem not_mem_of_mem_preorderEntries {path : List Text} : {entries : List (Node × Node)} →
    (keys : ∀ e ∈ entries, ∃ text ≠ [], e.1 = .scalar text) →
    (values : ∀ e ∈ entries, NamedKeys e.2) → [] ∉ path →
    ∀ entry ∈ preorderEntries path entries, [] ∉ entry.1
  | [], _, _, _ => by simp [preorderEntries]
  | (key, value) :: rest, keys, values, above => by
    intro entry inTree
    rw [preorderEntries, List.mem_append] at inTree
    rcases inTree with below | later
    · obtain ⟨text, nonempty, rfl⟩ := keys (key, value) List.mem_cons_self
      have longer : [] ∉ path ++ [text] := by
        rw [List.mem_append, List.mem_singleton]
        exact fun empty => empty.elim above nonempty.symm
      exact not_mem_of_mem_preorder (values (_, value) List.mem_cons_self) longer entry below
    · exact not_mem_of_mem_preorderEntries (fun e inRest => keys e (List.mem_cons_of_mem _ inRest))
        (fun e inRest => values e (List.mem_cons_of_mem _ inRest)) above entry later

end

end Node

end Yaml
