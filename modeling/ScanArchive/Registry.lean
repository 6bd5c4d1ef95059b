import ScanArchive.Encoding

/-!
# Registry of versions

The version tag of an entry selects the encoding of its contents.  A version that is registered
is never replaced.
-/

namespace ScanArchive

/-- A version with the encoding that its entries use. -/
structure Provider where
  version : Int16
  encoding : Encoding
  deriving DecidableEq, Repr

namespace Provider

def kinds (p : Provider) : List NodeKind := p.encoding.kinds

def supports (p : Provider) (kind : NodeKind) : Bool := kind ∈ p.kinds

def describe (p : Provider) : String :=
  "VersionProvider \x7b version: " ++ toString p.version ++ ", node_kinds: ["
    ++ ", ".intercalate (p.kinds.map (·.name)) ++ "] \x7d"

end Provider

structure Registry where
  providers : List Provider
  sorted : providers.Pairwise (·.version < ·.version)

namespace Registry

def empty : Registry := ⟨[], .nil⟩

def insertProvider (p : Provider) : List Provider → List Provider
  | [] => [p]
  | q :: rest => if p.version < q.version then p :: q :: rest else q :: insertProvider p rest

theorem mem_insertProvider {p q : Provider} {providers : List Provider} :
    q ∈ insertProvider p providers ↔ q = p ∨ q ∈ providers := by
  induction providers with
  | nil => simp [insertProvider]
  | cons r rest ih =>
    rw [insertProvider]
    split
    · simp
    · simp only [List.mem_cons, ih]
      exact ⟨fun h => h.elim (.inr ∘ .inl) (·.imp_right .inr),
        fun h => h.elim (.inr ∘ .inl) (·.imp_right .inr)⟩

theorem sorted_insertProvider {p : Provider} {providers : List Provider}
    (hs : providers.Pairwise (·.version < ·.version))
    (hp : ∀ q ∈ providers, q.version ≠ p.version) :
    (insertProvider p providers).Pairwise (·.version < ·.version) := by
  induction providers with
  | nil => simp [insertProvider]
  | cons r rest ih =>
    obtain ⟨hr, hrest⟩ := List.pairwise_cons.1 hs
    rw [insertProvider]
    split
    · rename_i hlt
      refine List.pairwise_cons.2 ⟨fun q hq => ?_, hs⟩
      rcases List.mem_cons.1 hq with rfl | hq
      · exact hlt
      · exact Int16.lt_trans hlt (hr q hq)
    · rename_i hlt
      refine List.pairwise_cons.2
        ⟨fun q hq => ?_, ih hrest fun q hq => hp q (List.mem_cons_of_mem _ hq)⟩
      rcases mem_insertProvider.1 hq with rfl | hq
      · exact Int16.lt_of_le_of_ne (Int16.not_lt.1 hlt) (hp r List.mem_cons_self)
      · exact hr q hq

/-- The registry with one more version; nothing when the version is there already. -/
def register? (r : Registry) (p : Provider) : Option Registry :=
  if h : ∀ q ∈ r.providers, q.version ≠ p.version then
    some ⟨insertProvider p r.providers, sorted_insertProvider r.sorted h⟩
  else none

def provider (r : Registry) (version : Int16) : Except Error Provider :=
  match r.providers.find? (·.version = version) with
  | some p => .ok p
  | none => .error (.unknownVersion version)

def versions (r : Registry) : List Int16 := r.providers.map (·.version)

/-- Both encodings, each under the version that introduced it. -/
def builtin : Registry where
  providers := [⟨Layout.version1, .bare⟩, ⟨Layout.version2, .enveloped⟩]
  sorted := by decide

theorem provider_of_provider {version : Int16} {p : Provider}
    (hp : builtin.provider version = .ok p) :
    p.version = version ∧ builtin.provider p.version = .ok p := by
  have hversion : p.version = version := by
    rw [provider] at hp
    split at hp
    · rename_i q hq
      cases hp
      simpa using List.find?_some hq
    · cases hp
  exact ⟨hversion, by rw [hversion]; exact hp⟩

end Registry
end ScanArchive
