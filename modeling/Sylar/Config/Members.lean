import Mathlib.Tactic.SplitIfs
import Sylar.Lib.Yaml
import Sylar.Util.Text

/-!
# The list of a document

`config::ListAllMember` of `config.hpp`, which appends the nodes of a document with the
dotted paths to them, as far as the paths are valid.

* `listAllMember_eq`: what is appended are the nodes at valid dotted paths, in pre-order.
* `listAllMember_named`: the paths are the keys joined with dots, where all keys are scalars
  with a text.
-/

namespace Sylar

open Bytes Yaml

namespace Config

/-- The bytes that a path may consist of. -/
def pathBytes : Bytes := lit "abcdefghijklmnopqrstuvwxyz._01234566789"

/-- The path of a child. -/
def addKey (path key : Bytes) : Bytes := if path = [] then key else path ++ byte '.' :: key

mutual

/-- `ListAllMember`. -/
def listAllMember (path : Bytes) (node : Node) (output : List (Bytes × Node)) :
    List (Bytes × Node) :=
  match node with
  | .map entries =>
    if findFirstNotOf path pathBytes ≠ none then output
    else listEntries path entries (output ++ [(path, .map entries)])
  | node => if findFirstNotOf path pathBytes ≠ none then output else output ++ [(path, node)]
termination_by structural node

/-- Its loop over the entries of a map. -/
def listEntries (path : Bytes) (entries : List (Node × Node)) (output : List (Bytes × Node)) :
    List (Bytes × Node) :=
  match entries with
  | [] => output
  | (key, value) :: rest =>
    listEntries path rest (listAllMember (addKey path key.scalarText) value output)
termination_by structural entries

end

/-- The name that the keys on the way to a node make. -/
def dotted (keys : List Bytes) : Bytes := keys.foldl addKey []

/-- Every byte is one that a path may consist of. -/
def ValidPath (path : Bytes) : Prop := ∀ c ∈ path, c ∈ pathBytes

instance (path : Bytes) : Decidable (ValidPath path) :=
  inferInstanceAs (Decidable (∀ c ∈ path, c ∈ pathBytes))

/-- The nodes of a document at valid dotted paths, in pre-order. -/
def members (path : List Bytes) (node : Node) : List (Bytes × Node) :=
  ((node.preorder path).map fun e => (dotted e.1, e.2)).filter fun e => ValidPath e.1

theorem findFirstNotOf_pathBytes {path : Bytes} :
    findFirstNotOf path pathBytes ≠ none ↔ ¬ ValidPath path := by
  constructor
  · exact fun found valid => found (findFirstNotOf_none valid)
  · intro invalid none_found
    apply invalid
    intro c inPath
    have allIn := List.findIdx?_eq_none_iff.mp none_found c inPath
    simpa using allIn

theorem dotted_append (keys : List Bytes) (key : Bytes) :
    dotted (keys ++ [key]) = addKey (dotted keys) key := by
  rw [dotted, List.foldl_append]
  rfl

theorem prefix_addKey (path key : Bytes) : path <+: addKey path key := by
  unfold addKey
  split_ifs with empty
  · rw [empty]
    exact List.nil_prefix
  · exact List.prefix_append path _

theorem prefix_foldl_addKey (path : Bytes) (keys : List Bytes) :
    path <+: keys.foldl addKey path := by
  induction keys generalizing path with
  | nil => exact List.prefix_rfl
  | cons key keys ih => exact (prefix_addKey path key).trans (ih (addKey path key))

theorem dotted_mono {keys more : List Bytes} (front : keys <+: more) :
    dotted keys <+: dotted more := by
  obtain ⟨rest, rfl⟩ := front
  rw [dotted, dotted, List.foldl_append]
  exact prefix_foldl_addKey _ rest

/-- Below an invalid path every path is invalid. -/
theorem members_invalid {path : List Bytes} (invalid : ¬ ValidPath (dotted path)) (node : Node) :
    members path node = [] := by
  rw [members, List.filter_eq_nil_iff]
  intro e inMap valid
  obtain ⟨entry, inTree, rfl⟩ := List.mem_map.mp inMap
  have front := dotted_mono (Node.prefix_of_mem_preorder path node entry inTree)
  exact invalid fun c inPath => of_decide_eq_true valid c (front.subset inPath)

/-- The members below the entries of a map. -/
def entryMembers (path : List Bytes) (entries : List (Node × Node)) : List (Bytes × Node) :=
  ((Node.preorderEntries path entries).map fun e => (dotted e.1, e.2)).filter fun e => ValidPath e.1

theorem entryMembers_cons (path : List Bytes) (key value : Node) (rest : List (Node × Node)) :
    entryMembers path ((key, value) :: rest) =
      members (path ++ [key.scalarText]) value ++ entryMembers path rest := by
  rw [entryMembers, Node.preorderEntries, List.map_append, List.filter_append]
  rfl

/-- A node that is not a map, at a path that is valid or not. -/
theorem listAllMember_leaf (path : List Bytes) {node : Node} (output : List (Bytes × Node))
    (leaf : ∀ entries, node ≠ .map entries) :
    listAllMember (dotted path) node output = output ++ members path node := by
  have listed : listAllMember (dotted path) node output =
      if findFirstNotOf (dotted path) pathBytes ≠ none then output
      else output ++ [(dotted path, node)] := by
    cases node with
    | map entries => exact absurd rfl (leaf entries)
    | null => rfl
    | scalar text => rfl
    | sequence items => rfl
  rw [listed]
  split_ifs with invalid
  · rw [members_invalid (findFirstNotOf_pathBytes.mp invalid), List.append_nil]
  · have valid : ValidPath (dotted path) := not_not.mp (mt findFirstNotOf_pathBytes.mpr invalid)
    simp [members, Node.preorder_leaf path leaf, valid]

theorem members_map {path : List Bytes} (entries : List (Node × Node))
    (valid : ValidPath (dotted path)) :
    members path (.map entries) = (dotted path, .map entries) :: entryMembers path entries := by
  simp [members, entryMembers, Node.preorder, valid]

mutual

/-- `ListAllMember` appends the members. -/
theorem listAllMember_eq (path : List Bytes) (output : List (Bytes × Node)) : (node : Node) →
    listAllMember (dotted path) node output = output ++ members path node
  | .map entries => by
    rw [listAllMember]
    split_ifs with invalid
    · rw [members_invalid (findFirstNotOf_pathBytes.mp invalid), List.append_nil]
    · have valid : ValidPath (dotted path) := not_not.mp (mt findFirstNotOf_pathBytes.mpr invalid)
      rw [listEntries_eq path _ entries, members_map entries valid, List.append_assoc]
      rfl
  | .null => listAllMember_leaf path output nofun
  | .scalar _ => listAllMember_leaf path output nofun
  | .sequence _ => listAllMember_leaf path output nofun

theorem listEntries_eq (path : List Bytes) (output : List (Bytes × Node)) :
    (entries : List (Node × Node)) →
      listEntries (dotted path) entries output = output ++ entryMembers path entries
  | [] => by
    rw [listEntries]
    exact (List.append_nil output).symm
  | (key, value) :: rest => by
    rw [listEntries, ← dotted_append, listAllMember_eq (path ++ [key.scalarText]) output value,
      listEntries_eq path _ rest, entryMembers_cons, List.append_assoc]

end

/-! ## Documents whose keys have a text -/

/-- The keys joined with dots. -/
def joined (keys : List Bytes) : Bytes := List.intercalate [byte '.'] keys

/-- Behind a path that is not empty, every key comes with a dot. -/
theorem foldl_addKey {path : Bytes} (begun : path ≠ []) (keys : List Bytes) :
    keys.foldl addKey path = List.intercalate [byte '.'] (path :: keys) := by
  induction keys generalizing path with
  | nil => exact List.intercalate_singleton.symm
  | cons key keys ih =>
    have dot : addKey path key = path ++ byte '.' :: key := if_neg begun
    have longer : path ++ byte '.' :: key ≠ [] := List.append_ne_nil_of_left_ne_nil begun _
    rw [List.foldl_cons, dot, ih longer]
    cases keys with
    | nil =>
      simp only [List.intercalate_singleton, List.intercalate_cons_cons, List.append_assoc,
        List.singleton_append]
    | cons next keys =>
      simp only [List.intercalate_cons_cons, List.append_assoc, List.cons_append, List.nil_append]

theorem dotted_eq_joined {keys : List Bytes} (named : [] ∉ keys) : dotted keys = joined keys := by
  cases keys with
  | nil => rfl
  | cons key keys =>
    have begun : key ≠ [] := fun empty => named (empty ▸ List.mem_cons_self)
    have first : addKey [] key = key := if_pos rfl
    rw [dotted, List.foldl_cons, first, foldl_addKey begun, joined]

/-- `ListAllMember` appends an entry for the root and for each node whose path is valid, in
pre-order, and none for a node at or below a path that is not. -/
theorem listAllMember_named (root : Node) (output : List (Bytes × Node)) (named : root.NamedKeys) :
    listAllMember [] root output = output ++
        ((root.preorder []).map fun e => (joined e.1, e.2)).filter (fun e => ValidPath e.1) ∧
      ∀ e ∈ root.preorder [], ∀ front, front <+: e.1 →
        ¬ ValidPath (joined front) → ¬ ValidPath (joined e.1) := by
  have keys : ∀ e ∈ root.preorder [], [] ∉ e.1 :=
    Node.not_mem_of_mem_preorder named List.not_mem_nil
  constructor
  · have paths : (root.preorder []).map (fun e => (dotted e.1, e.2)) =
        (root.preorder []).map fun e => (joined e.1, e.2) :=
      List.map_congr_left fun e inTree => by rw [dotted_eq_joined (keys e inTree)]
    rw [← paths]
    exact listAllMember_eq [] output root
  · intro e inTree front above invalid valid
    apply invalid
    rw [← dotted_eq_joined (keys e inTree)] at valid
    rw [← dotted_eq_joined fun empty => keys e inTree (above.subset empty)]
    exact fun c inPath => valid c ((dotted_mono above).subset inPath)

/-- The entry with an upper case key is left out, and the one behind it is not. -/
theorem listAllMember_sibling :
    let below := Node.map [(.scalar (lit "B"), .null), (.scalar (lit "c"), .null)]
    let root := Node.map [(.scalar (lit "a"), below)]
    listAllMember [] root [] = [([], root), (lit "a", below), (lit "a.c", .null)] := by
  intro below root
  have one : below.NamedKeys := by
    refine .map (fun e inMap => ?_) fun e inMap => ?_
    · rcases List.mem_pair.mp inMap with rfl | rfl
      · exact ⟨lit "B", by decide, rfl⟩
      · exact ⟨lit "c", by decide, rfl⟩
    · rcases List.mem_pair.mp inMap with rfl | rfl
      · exact .null
      · exact .null
  have named : root.NamedKeys := by
    refine .map (fun e inMap => ?_) fun e inMap => ?_
    · obtain rfl := List.mem_singleton.mp inMap
      exact ⟨lit "a", by decide, rfl⟩
    · obtain rfl := List.mem_singleton.mp inMap
      exact one
  have paths : (root.preorder []).map (fun e => (joined e.1, e.2)) =
      [([], root), (lit "a", below), (lit "a.B", .null), (lit "a.c", .null)] := rfl
  have empty : ValidPath [] := fun _ none => absurd none List.not_mem_nil
  have above : ValidPath (lit "a") := by decide +kernel
  have invalid : ¬ ValidPath (lit "a.B") := by decide +kernel
  have valid : ValidPath (lit "a.c") := by decide +kernel
  rw [(listAllMember_named root [] named).1, paths]
  simp only [List.nil_append, List.filter_cons, List.filter_nil, decide_eq_true_iff, empty, above,
    invalid, valid, if_true, if_false]

end Config

end Sylar
