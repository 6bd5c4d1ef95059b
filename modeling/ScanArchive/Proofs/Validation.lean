import Mathlib
import ScanArchive.Proofs.Encoding

/-!
# What the validators decide

A node is accepted just if it keeps to the contract of its kind, and is refused for the first
clause that it breaks, whatever its other fields hold.  Main statement: `first_violation_reported`.
-/

namespace ScanArchive

/-! ## 1. Blank texts -/

namespace Text

/-- The code points with the Unicode property White_Space. -/
def unicodeSpace : Set Nat :=
  Set.Icc 0x09 0x0D ∪ Set.Icc 0x2000 0x200A ∪
    {0x20, 0x85, 0xA0, 0x1680, 0x2028, 0x2029, 0x202F, 0x205F, 0x3000}

/--
White space without the next-line character and the three spaces that forbid a line break, and
with the four information separators.
-/
def whitespace : Set Nat := (unicodeSpace \ {0x85, 0xA0, 0x2007, 0x202F}) ∪ Set.Icc 0x1C 0x1F

def Blank (s : String) : Prop := ∀ c ∈ s.toList, c.toNat ∈ whitespace

theorem isBlankChar_iff {c : Char} : isBlankChar c = true ↔ c.toNat ∈ whitespace := by
  simp only [isBlankChar, whitespace, unicodeSpace, Set.mem_union, Set.mem_sdiff, Set.mem_Icc,
    Set.mem_insert_iff, Set.mem_singleton_iff, Bool.or_eq_true, Bool.and_eq_true,
    decide_eq_true_eq, beq_iff_eq]
  omega

theorem isBlank_iff {s : String} : isBlank s = true ↔ Blank s := by
  simp only [isBlank, Blank, List.all_eq_true, isBlankChar_iff]

end Text

/-! ## 2. Contracts -/

/-- What a contract asks of a field, with what the field holds. -/
inductive Clause where
  | nonEmpty (field content : String)
  | nonBlank (field content : String)
  | nonEmptyList (field : String) (length : Nat)
  | present (field : String) (isSet : Bool)

namespace Clause

def field : Clause → String
  | nonEmpty field _ => field
  | nonBlank field _ => field
  | nonEmptyList field _ => field
  | present field _ => field

def rule : Clause → FieldRule
  | nonEmpty .. => .nonEmpty
  | nonBlank .. => .nonBlank
  | nonEmptyList .. => .nonEmptyList
  | present .. => .present

def Kept : Clause → Prop
  | nonEmpty _ content => content ≠ ""
  | nonBlank _ content => ¬ Text.Blank content
  | nonEmptyList _ length => length ≠ 0
  | present _ isSet => isSet = true

def offence : Clause → String
  | nonEmpty _ content => content
  | nonBlank _ content => content
  | nonEmptyList .. => "[]"
  | present .. => "null"

structure CheckedBy (clause : Clause) (r : Requirement) : Prop where
  field : r.field = clause.field
  rule : r.rule = clause.rule
  value : r.value = clause.offence
  met : r.met = true ↔ clause.Kept

variable {field content : String}

@[simp] theorem checkedBy_nonEmpty :
    (nonEmpty field content).CheckedBy (.nonEmpty field content) where
  field := rfl
  rule := rfl
  value := rfl
  met := by simp [Requirement.nonEmpty, Kept]

@[simp] theorem checkedBy_nonBlank :
    (nonBlank field content).CheckedBy (.nonBlank field content) where
  field := rfl
  rule := rfl
  value := rfl
  met := by
    rw [Kept, ← Text.isBlank_iff]
    simp [Requirement.nonBlank]

@[simp] theorem checkedBy_nonEmptyList {α : Type} {values : List α} :
    (nonEmptyList field values.length).CheckedBy (.nonEmptyList field values) where
  field := rfl
  rule := rfl
  value := rfl
  met := by simp [Requirement.nonEmptyList, Kept]

@[simp] theorem checkedBy_present {α : Type} {value : Option α} :
    (present field value.isSome).CheckedBy (.present field value) where
  field := rfl
  rule := rfl
  value := rfl
  met := by simp [Requirement.present, Kept]

end Clause

/-- The contract of a node: its required fields, in the order of their declaration. -/
def Node.contract : Node → List Clause
  | .file n => [.nonEmpty "name" n.name, .nonBlank "path" n.path, .nonBlank "uri" n.uri,
      .nonBlank "fileSystemType" n.fileSystemType]
  | .dependency n =>
    [.nonBlank "componentId" n.componentId, .nonEmptyList "matchTypes" n.matchTypes.length]
  | .component n => [.nonBlank "id" n.id, .nonBlank "namespace" n.namespaceName,
      .nonBlank "identifier" n.identifier]
  | Node.annotation n => [.nonBlank "id" n.id, .nonBlank "comment" n.comment]
  | .container n => [.nonBlank "id" n.id, .nonBlank "image" n.image,
      .nonBlank "architecture" n.architecture, .nonBlank "os" n.os, .nonBlank "config" n.config,
      .nonEmptyList "layers" n.layers.length]
  | .containerLayer n => [.nonBlank "id" n.id, .nonBlank "layer" n.layer]
  | .bdbaFile n => [.nonBlank "id" n.id, .nonBlank "uri" n.uri,
      .present "lastModifiedDateTime" n.lastModifiedDateTime.isSome]

theorem Node.forall₂_checkedBy (n : Node) :
    List.Forall₂ Clause.CheckedBy n.contract n.requirements := by
  cases n <;> simp [contract, requirements]

/-! ## 3. The first clause that is broken -/

namespace Clause

def FirstBroken (clauses : List Clause) (broken : Clause) : Prop :=
  ∃ kept later, clauses = kept ++ broken :: later ∧ (∀ clause ∈ kept, clause.Kept) ∧ ¬ broken.Kept

variable {clause broken : Clause} {clauses : List Clause} {r : Requirement}
  {requirements : List Requirement}

theorem not_firstBroken_nil : ¬ FirstBroken [] broken := by
  rintro ⟨kept, later, heq, -⟩
  simp at heq

theorem firstBroken_cons_of_kept (h : clause.Kept) :
    FirstBroken (clause :: clauses) broken ↔ FirstBroken clauses broken := by
  constructor
  · rintro ⟨kept, later, heq, hkept, hbroken⟩
    cases kept with
    | nil =>
      obtain ⟨rfl, -⟩ := List.cons.inj heq
      exact absurd h hbroken
    | cons first kept =>
      exact ⟨kept, later, (List.cons.inj heq).2, (List.forall_mem_cons.1 hkept).2, hbroken⟩
  · rintro ⟨kept, later, rfl, hkept, hbroken⟩
    exact ⟨clause :: kept, later, rfl, List.forall_mem_cons.2 ⟨h, hkept⟩, hbroken⟩

theorem firstBroken_cons_of_not_kept (h : ¬ clause.Kept) :
    FirstBroken (clause :: clauses) broken ↔ broken = clause := by
  constructor
  · rintro ⟨kept, later, heq, hkept, -⟩
    cases kept with
    | nil => exact (List.cons.inj heq).1.symm
    | cons first kept =>
      obtain ⟨rfl, -⟩ := List.cons.inj heq
      exact absurd (hkept clause List.mem_cons_self) h
  · rintro rfl
    exact ⟨[], clauses, rfl, by simp, h⟩

theorem check_cons_of_met (message : String) (h : r.met = true) :
    Requirement.check message (r :: requirements) = Requirement.check message requirements := by
  rw [Requirement.check, List.find?_cons_of_neg (by simpa using h)]
  rfl

theorem check_cons_of_not_met (message : String) (h : ¬ r.met = true) :
    Requirement.check message (r :: requirements)
      = .error (.brokenRule message r.field r.rule r.value) := by
  rw [Requirement.check, List.find?_cons_of_pos (by simpa using h)]

/-- Checking ends at the first clause that is broken, and accepts if there is none. -/
theorem check_spec (message : String) (h : List.Forall₂ CheckedBy clauses requirements) :
    (Requirement.check message requirements = .ok () ↔ ∀ clause ∈ clauses, clause.Kept) ∧
    ∀ e, Requirement.check message requirements = .error e ↔
      ∃ broken, FirstBroken clauses broken ∧
        e = .brokenRule message broken.field broken.rule broken.offence := by
  -- clause by clause: one that is kept changes nothing, one that is broken decides
  induction h with
  | nil =>
    refine ⟨by simp [Requirement.check], fun e => ?_⟩
    simp [Requirement.check, not_firstBroken_nil]
  | @cons clause r clauses requirements hchecked _ ih =>
    by_cases hkept : clause.Kept
    · rw [check_cons_of_met message (hchecked.met.2 hkept)]
      simpa only [List.forall_mem_cons, hkept, true_and, firstBroken_cons_of_kept] using ih
    · rw [check_cons_of_not_met message fun hmet => hkept (hchecked.met.1 hmet), hchecked.field,
        hchecked.rule, hchecked.value]
      simp [hkept, firstBroken_cons_of_not_kept, eq_comm]

end Clause

/-! ## 4. Validators -/

namespace Encoding

theorem validate_enveloped_eq (n : Node) : enveloped.validate n = n.validate := by
  rw [validate, if_pos (mem_kinds_enveloped n.kind)]

theorem validate_bare_eq (n : Node) :
    bare.validate n
      = if n.kind = .file then n.validate
        else .error (.unsupportedType Layout.version1 n.kind.messageName) := by
  simp only [validate, kinds, version, List.mem_singleton]

/--
Envelopes hold just the nodes that keep to their contracts.  Any other node is refused for the
first clause that it breaks, with the field, the rule and what the field holds.  Bare nodes are
judged in the same way if they are files, and are refused for their kind otherwise.
-/
theorem first_violation_reported (n : Node) :
    (enveloped.validate n = .ok () ↔ ∀ clause ∈ n.contract, clause.Kept) ∧
    (∀ e, enveloped.validate n = .error e ↔
      ∃ broken, Clause.FirstBroken n.contract broken ∧
        e = .brokenRule n.kind.messageName broken.field broken.rule broken.offence) ∧
    bare.validate n
      = if n.kind = .file then enveloped.validate n
        else .error (.unsupportedType Layout.version1 n.kind.messageName) := by
  obtain ⟨hok, herror⟩ := Clause.check_spec n.kind.messageName n.forall₂_checkedBy
  rw [validate_enveloped_eq, validate_bare_eq, Node.validate]
  exact ⟨hok, herror, rfl⟩

/-- A no-break space is something, a tab is nothing, and what comes behind is not looked at. -/
example :
    enveloped.validate (.file { name := " ", path := "\u00a0", uri := "\t" })
      = .error (.brokenRule "ProtoFileNode" "uri" .nonBlank "\t") := by
  decide

end Encoding
end ScanArchive
