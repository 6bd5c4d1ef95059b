import Mathlib
import ScanArchive.Proofs.Archive.Layout

/-!
# Chunks as sets

A chunk has the nodes it was built from, each once, and merging chunks is the union of sets:
`merge_is_union`.  One set for each kind of nodes has the same members and counts: `NodeSets.Has`.
-/

namespace ScanArchive

/-! ## 1. Kinds -/

theorem Node.sum_countP_kind {kinds : List NodeKind} (hkinds : kinds.Perm NodeKind.all)
    (nodes : List Node) :
    (kinds.map fun kind => nodes.countP (·.kind = kind)).sum = nodes.length := by
  -- node by node: each adds one to the count of its own kind and nothing to the others
  have hadd : ∀ (kinds : List NodeKind) (f g : NodeKind → Nat),
      (kinds.map fun kind => f kind + g kind).sum = (kinds.map f).sum + (kinds.map g).sum := by
    intro kinds f g
    induction kinds with
    | nil => rfl
    | cons kind kinds ih =>
      simp only [List.map_cons, List.sum_cons, ih]
      omega
  have hperm : ∀ f : NodeKind → Nat, (kinds.map f).sum = (NodeKind.all.map f).sum :=
    fun f => (hkinds.map f).foldr_op_eq
  have hone : ∀ kind : NodeKind,
      (kinds.map fun k => if decide (kind = k) = true then 1 else 0).sum = 1 := by
    intro kind
    rw [hperm]
    cases kind <;> decide
  induction nodes with
  | nil =>
    rw [hperm]
    rfl
  | cons n nodes ih =>
    simp only [List.countP_cons]
    rw [hadd, ih, hone, List.length_cons]

namespace Chunk

/-! ## 2. Building -/

theorem addAll_cons (c : Chunk) (n : Node) (nodes : List Node) :
    c.addAll (n :: nodes) = (((c.insert n).addAll nodes).1,
      decide (n ∉ c) :: ((c.insert n).addAll nodes).2) := rfl

/-- A node is a new one if it was not there at first and does not stand further ahead. -/
theorem addAll_eq (c : Chunk) (nodes : List Node) :
    c.addAll nodes = (nodes.foldl insert c,
      nodes.mapIdx fun i n => decide (n ∉ c ∧ n ∉ nodes.take i)) := by
  induction nodes generalizing c with
  | nil => rfl
  | cons n nodes ih =>
    have hhead : (n ∉ c ∧ n ∉ (n :: nodes).take 0) = (n ∉ c) := by simp
    have htail : ∀ i m, (m ∉ c.insert n ∧ m ∉ nodes.take i)
        = (m ∉ c ∧ m ∉ (n :: nodes).take (i + 1)) := by
      intro i m
      rw [mem_insert, List.take_succ_cons, List.mem_cons, not_or, not_or, and_assoc, and_left_comm]
    rw [addAll_cons, ih, List.foldl_cons, List.mapIdx_cons]
    simp only [hhead, htail]

theorem ofList_perm_dedup (nodes : List Node) : (ofList nodes).toList.Perm nodes.dedup := by
  refine (List.perm_ext_iff_of_nodup (ofList nodes).nodup (List.nodup_dedup _)).2 fun n => ?_
  rw [List.mem_dedup]
  exact mem_ofList

theorem count_ofList (nodes : List Node) (kind : NodeKind) :
    (ofList nodes).count kind = nodes.dedup.countP (·.kind = kind) :=
  (ofList_perm_dedup nodes).countP_eq _

theorem size_ofList (nodes : List Node) : (ofList nodes).size = nodes.dedup.length :=
  (ofList_perm_dedup nodes).length_eq

theorem sum_count (c : Chunk) : (NodeKind.all.map c.count).sum = c.size :=
  Node.sum_countP_kind (.refl _) c.toList

/-! ## 3. Merging -/

theorem perm_iff {c c' : Chunk} : c.toList.Perm c'.toList ↔ ∀ n, n ∈ c ↔ n ∈ c' :=
  List.perm_ext_iff_of_nodup c.nodup c'.nodup

theorem beq_iff {a b : Chunk} : (a == b) = true ↔ ∀ n, n ∈ a ↔ n ∈ b := by
  have hunfold : (a == b) = true ↔ a.toList.length = b.toList.length ∧ a.toList ⊆ b.toList := by
    show (a.size == b.size && a.toList.all (· ∈ b)) = true ↔ _
    rw [Bool.and_eq_true, beq_iff_eq, List.all_eq_true]
    simp only [decide_eq_true_eq]
    rfl
  rw [hunfold, ← perm_iff]
  constructor
  · intro h
    apply (List.subperm_of_subset a.nodup h.2).perm_of_length_le
    exact h.1.ge
  · intro h
    exact ⟨h.length_eq, h.subset⟩

/-- Merging keeps each node of the chunks once. -/
theorem merge_perm_dedup (chunks : List Chunk) :
    (merge chunks).toList.Perm (chunks.flatMap (·.toList)).dedup := by
  refine (List.perm_ext_iff_of_nodup (merge chunks).nodup (List.nodup_dedup _)).2 fun n => ?_
  show n ∈ merge chunks ↔ _
  rw [mem_merge, List.mem_dedup, List.mem_flatMap]
  rfl

theorem count_merge_le_sum (chunks : List Chunk) (kind : NodeKind) :
    (merge chunks).count kind ≤ (chunks.map (·.count kind)).sum := by
  have hflat : (chunks.flatMap (·.toList)).countP (·.kind = kind)
      = (chunks.map (·.count kind)).sum := by
    induction chunks with
    | nil => rfl
    | cons c chunks ih => rw [List.flatMap_cons, List.countP_append, ih]; rfl
  rw [count, (merge_perm_dedup chunks).countP_eq, ← hflat]
  exact (List.dedup_sublist _).countP_le

theorem mem_merge_pair {a b : Chunk} {n : Node} : n ∈ merge [a, b] ↔ n ∈ a ∨ n ∈ b := by
  rw [mem_merge]
  simp

end Chunk

/-! ## 4. One set for each kind -/

/-- A set of nodes that is kept as one set for each kind. -/
structure NodeSets where
  files : Finset FileNode := ∅
  dependencies : Finset DependencyNode := ∅
  components : Finset ComponentNode := ∅
  annotations : Finset AnnotationNode := ∅
  containers : Finset ContainerNode := ∅
  containerLayers : Finset ContainerLayerNode := ∅
  bdbaFiles : Finset BdbaFileNode := ∅

namespace NodeSets

def add (s : NodeSets) : Node → NodeSets × Bool
  | .file n => ({ s with files := insert n s.files }, n ∉ s.files)
  | .dependency n => ({ s with dependencies := insert n s.dependencies }, n ∉ s.dependencies)
  | .component n => ({ s with components := insert n s.components }, n ∉ s.components)
  | Node.annotation n => ({ s with annotations := insert n s.annotations }, n ∉ s.annotations)
  | .container n => ({ s with containers := insert n s.containers }, n ∉ s.containers)
  | .containerLayer n =>
    ({ s with containerLayers := insert n s.containerLayers }, n ∉ s.containerLayers)
  | .bdbaFile n => ({ s with bdbaFiles := insert n s.bdbaFiles }, n ∉ s.bdbaFiles)

def contains (s : NodeSets) : Node → Bool
  | .file n => n ∈ s.files
  | .dependency n => n ∈ s.dependencies
  | .component n => n ∈ s.components
  | Node.annotation n => n ∈ s.annotations
  | .container n => n ∈ s.containers
  | .containerLayer n => n ∈ s.containerLayers
  | .bdbaFile n => n ∈ s.bdbaFiles

def count (s : NodeSets) : NodeKind → Nat
  | .file => s.files.card
  | .dependency => s.dependencies.card
  | .component => s.components.card
  | NodeKind.annotation => s.annotations.card
  | .container => s.containers.card
  | .containerLayer => s.containerLayers.card
  | .bdbaFile => s.bdbaFiles.card

def size (s : NodeSets) : Nat := (NodeKind.all.map s.count).sum

def union (s t : NodeSets) : NodeSets where
  files := s.files ∪ t.files
  dependencies := s.dependencies ∪ t.dependencies
  components := s.components ∪ t.components
  annotations := s.annotations ∪ t.annotations
  containers := s.containers ∪ t.containers
  containerLayers := s.containerLayers ∪ t.containerLayers
  bdbaFiles := s.bdbaFiles ∪ t.bdbaFiles

def ofList (nodes : List Node) : NodeSets := nodes.foldl (fun s n => (s.add n).1) {}

def merge (sets : List NodeSets) : NodeSets := sets.foldl union {}

theorem contains_add (s : NodeSets) (n m : Node) :
    (s.add n).1.contains m ↔ m = n ∨ s.contains m := by
  cases n <;> cases m <;> simp [add, contains]

theorem add_isNew (s : NodeSets) (n : Node) : (s.add n).2 = !s.contains n := by
  cases n <;> simp [add, contains]

theorem contains_union (s t : NodeSets) (n : Node) :
    (s.union t).contains n ↔ s.contains n ∨ t.contains n := by
  cases n <;> simp [union, contains]

theorem contains_empty (n : Node) : ({} : NodeSets).contains n = false := by
  cases n <;> rfl

theorem ext_contains {s t : NodeSets} (h : ∀ n, s.contains n = t.contains n) : s = t := by
  obtain ⟨_, _, _, _, _, _, _⟩ := s
  obtain ⟨_, _, _, _, _, _, _⟩ := t
  rw [mk.injEq]
  refine ⟨?_, ?_, ?_, ?_, ?_, ?_, ?_⟩ <;> ext n
  · simpa [contains] using h (.file n)
  · simpa [contains] using h (.dependency n)
  · simpa [contains] using h (.component n)
  · simpa [contains] using h (Node.annotation n)
  · simpa [contains] using h (.container n)
  · simpa [contains] using h (.containerLayer n)
  · simpa [contains] using h (.bdbaFile n)

/-- The sets have the nodes of the chunk. -/
def Has (s : NodeSets) (c : Chunk) : Prop := ∀ n, s.contains n ↔ n ∈ c

namespace Has

variable {s t : NodeSets} {c d : Chunk}

theorem card_eq (h : s.Has c) {α : Type} {kind : NodeKind} {set : Finset α} {f : α → Node}
    (hf : Function.Injective f) (hkind : ∀ n : Node, n.kind = kind ↔ ∃ a, f a = n)
    (hset : ∀ a, s.contains (f a) = true ↔ a ∈ set) : set.card = c.count kind := by
  classical
  have himage : set.image f = (c.toList.filter (·.kind = kind)).toFinset := by
    ext n
    rw [Finset.mem_image, List.mem_toFinset, List.mem_filter, decide_eq_true_eq, hkind]
    constructor
    · rintro ⟨a, ha, rfl⟩
      exact ⟨(h (f a)).1 ((hset a).2 ha), a, rfl⟩
    · rintro ⟨hn, a, rfl⟩
      exact ⟨a, (hset a).1 ((h (f a)).2 hn), rfl⟩
  rw [← Finset.card_image_of_injective set hf, himage,
    List.toFinset_card_of_nodup (c.nodup.filter _), Chunk.count, List.countP_eq_length_filter]

theorem count_eq (h : s.Has c) (kind : NodeKind) : s.count kind = c.count kind := by
  -- the kinds differ in their constructor and their set only
  cases kind with
  | file =>
    exact h.card_eq (f := .file) (fun _ _ => Node.file.inj)
      (fun n => by cases n <;> simp [Node.kind]) fun _ => decide_eq_true_iff
  | dependency =>
    exact h.card_eq (f := .dependency) (fun _ _ => Node.dependency.inj)
      (fun n => by cases n <;> simp [Node.kind]) fun _ => decide_eq_true_iff
  | component =>
    exact h.card_eq (f := .component) (fun _ _ => Node.component.inj)
      (fun n => by cases n <;> simp [Node.kind]) fun _ => decide_eq_true_iff
  | annotation =>
    exact h.card_eq (f := Node.annotation) (fun _ _ => Node.annotation.inj)
      (fun n => by cases n <;> simp [Node.kind]) fun _ => decide_eq_true_iff
  | container =>
    exact h.card_eq (f := .container) (fun _ _ => Node.container.inj)
      (fun n => by cases n <;> simp [Node.kind]) fun _ => decide_eq_true_iff
  | containerLayer =>
    exact h.card_eq (f := .containerLayer) (fun _ _ => Node.containerLayer.inj)
      (fun n => by cases n <;> simp [Node.kind]) fun _ => decide_eq_true_iff
  | bdbaFile =>
    exact h.card_eq (f := .bdbaFile) (fun _ _ => Node.bdbaFile.inj)
      (fun n => by cases n <;> simp [Node.kind]) fun _ => decide_eq_true_iff

theorem size_eq (h : s.Has c) : s.size = c.size := by
  have hcount : s.count = c.count := funext h.count_eq
  rw [size, hcount]
  exact c.sum_count

theorem isNew_eq (h : s.Has c) (n : Node) : (s.add n).2 = (c.add n).2 := by
  have hcontains : s.contains n = decide (n ∈ c) := Bool.eq_iff_iff.2 (by simp [h n])
  rw [add_isNew, hcontains]
  show (!decide (n ∈ c)) = decide (n ∉ c)
  rw [decide_not]

theorem add (h : s.Has c) (n : Node) : (s.add n).1.Has (c.add n).1 := by
  intro m
  rw [contains_add, h m]
  exact Chunk.mem_insert.symm

theorem foldl_add (h : s.Has c) (nodes : List Node) :
    Has (nodes.foldl (fun s n => (s.add n).1) s) (nodes.foldl Chunk.insert c) := by
  induction nodes generalizing s c with
  | nil => exact h
  | cons n nodes ih => exact ih (h.add n)

theorem union (hs : s.Has c) (ht : t.Has d) : (s.union t).Has (c.union d) := by
  intro n
  rw [contains_union, hs n, ht n, or_comm]
  exact Chunk.mem_foldl_insert.symm

theorem beq_iff_eq (hs : s.Has c) (ht : t.Has d) : (c == d) = true ↔ s = t := by
  rw [Chunk.beq_iff]
  constructor
  · intro h
    apply ext_contains
    intro n
    rw [Bool.eq_iff_iff, hs n, ht n, h n]
  · rintro rfl n
    rw [← hs n, ht n]

end Has

theorem has_empty : ({} : NodeSets).Has .empty := by
  intro n
  rw [contains_empty]
  exact iff_of_false Bool.false_ne_true Chunk.notMem_empty

theorem has_ofList (nodes : List Node) : (ofList nodes).Has (Chunk.ofList nodes) :=
  has_empty.foldl_add nodes

theorem has_merge {sets : List NodeSets} {chunks : List Chunk} (h : List.Forall₂ Has sets chunks) :
    (merge sets).Has (Chunk.merge chunks) := by
  -- with the unions so far in front
  have hfrom : ∀ {s c}, Has s c → Has (sets.foldl union s) (chunks.foldl Chunk.union c) := by
    induction h with
    | nil => exact fun hfirst => hfirst
    | cons hhead _ ih => exact fun hfirst => ih (hfirst.union hhead)
  exact hfrom has_empty

end NodeSets

/-! ## 5. The laws -/

namespace Chunk

theorem merge_beq_ofList_iff (lists : List (List Node)) (nodes : List Node) :
    (merge (lists.map ofList) == ofList nodes) = true
      ↔ ∀ n, n ∈ nodes ↔ ∃ list ∈ lists, n ∈ list := by
  rw [beq_iff]
  simp only [mem_merge_ofList, mem_ofList, iff_comm]

theorem merge_assoc (a b c : Chunk) :
    (merge [merge [a, b], c] == merge [a, merge [b, c]]) = true := by
  rw [beq_iff]
  intro n
  simp only [mem_merge_pair, or_assoc]

theorem merge_comm (a b : Chunk) : (merge [a, b] == merge [b, a]) = true := by
  rw [beq_iff]
  intro n
  rw [mem_merge_pair, mem_merge_pair, or_comm]

theorem merge_self (a : Chunk) : (merge [a, a] == a) = true := by
  rw [beq_iff]
  intro n
  rw [mem_merge_pair, or_self]

theorem merge_empty (a : Chunk) : (merge [a, empty] == a) = true := by
  rw [beq_iff]
  intro n
  rw [mem_merge_pair]
  exact or_iff_left notMem_empty

/--
Chunks are sets.  Of the nodes that are added one after another, just the first of each value is a
new one, and in the end those that were added are the members and each counts once.  Merging is the
union, whichever lists the members come from, so that it is associative, commutative and idempotent
and the empty chunk is its unit; no kind has more nodes than the parts have together.  One set
for each kind has the same members and counts, and is equal just when the chunks are.
-/
theorem merge_is_union :
    (∀ nodes : List Node,
      (empty.addAll nodes).1 = ofList nodes ∧
      (empty.addAll nodes).2 = nodes.mapIdx (fun i n => decide (n ∉ nodes.take i)) ∧
      (∀ n, n ∈ ofList nodes ↔ n ∈ nodes) ∧
      (∀ kind, (ofList nodes).count kind = nodes.dedup.countP (·.kind = kind)) ∧
      (ofList nodes).size = nodes.dedup.length) ∧
    (∀ (lists : List (List Node)) (nodes : List Node),
      merge (lists.map ofList) == ofList nodes ↔ ∀ n, n ∈ nodes ↔ ∃ list ∈ lists, n ∈ list) ∧
    (∀ a b c : Chunk, merge [merge [a, b], c] == merge [a, merge [b, c]]) ∧
    (∀ a b : Chunk, merge [a, b] == merge [b, a]) ∧
    (∀ a : Chunk, merge [a, a] == a ∧ merge [a, empty] == a) ∧
    (∀ (chunks : List Chunk) (kind : NodeKind),
      (merge chunks).count kind ≤ (chunks.map (·.count kind)).sum) ∧
    (∀ lists : List (List Node),
      let sets := NodeSets.merge (lists.map NodeSets.ofList)
      let c := merge (lists.map ofList)
      (∀ n, sets.contains n ↔ n ∈ c) ∧ (∀ n, (sets.add n).2 = (c.add n).2) ∧
      (∀ kind, sets.count kind = c.count kind) ∧ sets.size = c.size ∧
      ∀ nodes, c == ofList nodes ↔ sets = NodeSets.ofList nodes) := by
  refine ⟨fun nodes => ?_, merge_beq_ofList_iff, merge_assoc, merge_comm,
    fun a => ⟨merge_self a, merge_empty a⟩, count_merge_le_sum, fun lists => ?_⟩
  · have hadd := addAll_eq empty nodes
    simp only [notMem_empty, not_false_eq_true, true_and] at hadd
    refine ⟨?_, ?_, fun n => mem_ofList, count_ofList nodes, size_ofList nodes⟩
    · rw [hadd]
      rfl
    · rw [hadd]
  · have hlists : List.Forall₂ NodeSets.Has (lists.map NodeSets.ofList) (lists.map ofList) := by
      rw [List.forall₂_map_left_iff, List.forall₂_map_right_iff, List.forall₂_same]
      exact fun list _ => NodeSets.has_ofList list
    -- having the same members as a chunk decides all the rest
    have hhas := NodeSets.has_merge hlists
    exact ⟨hhas, hhas.isNew_eq, hhas.count_eq, hhas.size_eq,
      fun nodes => hhas.beq_iff_eq (NodeSets.has_ofList nodes)⟩

/-- A node that is added again is not a new one. -/
example : (empty.addAll [.remark "a", .remark "b", .remark "a"]).2 = [true, true, false] := by
  decide

end Chunk
end ScanArchive
