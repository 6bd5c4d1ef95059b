import Mathlib
import ScanArchive.Proofs.Archive.Writing
import ScanArchive.Proofs.Framing.Delivery
import ScanArchive.Proofs.Framing.Grammar

/-!
# Messages one after another

Messages that stand behind their lengths are taken off one by one, empty ones included, and
whatever follows them is left.  Main statement: `messages_self_delimiting`.
-/

namespace ScanArchive.Framing

open Wire

/--
The messages come off the stream one after another.  Each call takes a message and its length and
nothing else.
-/
inductive TakesOff : ByteStream → List Bytes → ByteStream → Prop where
  | nil (s : ByteStream) : TakesOff s [] s
  | cons {s s₁ s' : ByteStream} {body : Bytes} {bodies : List Bytes} :
      readDelimited s = .ok (some body, s₁) → s.rest = delimited body ++ s₁.rest →
        s₁.position = s.position + (delimited body).length → TakesOff s₁ bodies s' →
          TakesOff s (body :: bodies) s'

variable {s : ByteStream} {body rest t : Bytes} {bodies : List Bytes}

theorem exists_readDelimited (hsize : body.length < UInt64.size)
    (hs : s.Holds (delimited body ++ rest)) :
    ∃ s', readDelimited s = .ok (some body, s') ∧ s'.Holds rest ∧
      s'.position = s.position + (delimited body).length := by
  have hread := robust_readDelimited.givesOrFails (gives_readDelimited hsize rest)
  obtain ⟨s', hok, hleaves⟩ := (hread s hs.rest s.not_cutsWithin_zero).resolve_right
    fun ⟨fault, hfails, _⟩ => hs.not_failsWith fault hfails
  refine ⟨s', hok, hleaves.holds hs, ?_⟩
  -- what has been read is what is no longer left
  have hposition := hleaves.position
  rw [hs.rest, List.length_append] at hposition
  omega

theorem exists_takesOff (hshort : Short bodies) (hs : s.Holds (bodies.flatMap delimited ++ t)) :
    ∃ s', TakesOff s bodies s' ∧ s'.Holds t := by
  induction bodies generalizing s with
  | nil => exact ⟨s, .nil s, hs⟩
  | cons body bodies ih =>
    obtain ⟨hsize, hshort⟩ := List.forall_mem_cons.1 hshort
    rw [List.flatMap_cons, List.append_assoc] at hs
    obtain ⟨s₁, hread, hs₁, hposition⟩ := exists_readDelimited hsize hs
    obtain ⟨s', htakes, hs'⟩ := ih hshort hs₁
    exact ⟨s', .cons hread (hs.rest.trans (by rw [hs₁.rest])) hposition htakes, hs'⟩

theorem readDelimited_eq_none_iff (hs : s.Holds t) :
    (∃ s', readDelimited s = .ok (none, s')) ↔ t = [] := by
  constructor
  · rintro ⟨s', hread⟩
    obtain ⟨left, hgives⟩ := robust_readDelimited.steady.gives_of_eq_ok hs hread
    exact (splitDelimited_eq_none_iff.1 (gives_readDelimited_ok_iff.1 hgives)).1
  · rintro rfl
    obtain ⟨s', hread, -⟩ := gives_readDelimited_nil s hs
    exact ⟨s', hread⟩

/--
Messages behind their lengths delimit themselves.  From any stream that holds them, the calls give
the messages in order, each takes just one off, and all of what follows is left; behind the last
one the end is reported just if nothing follows.  The length that is charged for a node is that of
the message that is read back.
-/
theorem messages_self_delimiting (hshort : Short bodies) (t : Bytes) :
    (∀ s : ByteStream, s.Holds (bodies.flatMap delimited ++ t) →
      ∃ s', TakesOff s bodies s' ∧ s'.Holds t ∧
        ((∃ s'', readDelimited s' = .ok (none, s'')) ↔ t = [])) ∧
    ∀ (encoding : Encoding) (n : Node) (payload : Bytes), encoding.encodeNode n = .ok payload →
      (encoding.nodeBody n).length < UInt64.size →
        ∃ body, Writer.messageLength payload = .ok body.length ∧
          Gives readDelimited (payload ++ t) (.ok (some body, t)) := by
  constructor
  · intro s hs
    obtain ⟨s', htakes, hs'⟩ := exists_takesOff hshort hs
    exact ⟨s', htakes, hs', readDelimited_eq_none_iff hs'⟩
  · intro encoding n payload hpayload hsize
    rw [Encoding.encodeNode] at hpayload
    split at hpayload
    · cases hpayload
      exact ⟨encoding.nodeBody n, Writer.messageLength_delimited hsize,
        gives_readDelimited hsize t⟩
    · cases hpayload

/-- Three messages, of which the first and the last are empty, in front of a zero byte. -/
theorem empty_messages_taken_off :
    let bodies : List Bytes := [[], [1, 2], []]
    let remark : Node := Node.annotation { id := "a", comment := "b" }
    Short bodies ∧
      (∃ s', TakesOff (.ofBytes (bodies.flatMap delimited ++ [0])) bodies s' ∧ s'.Holds [0]) ∧
      ∃ body, Writer.messageLength (delimited (Encoding.enveloped.nodeBody remark))
          = .ok body.length ∧
        Gives readDelimited (delimited (Encoding.enveloped.nodeBody remark) ++ [0])
          (.ok (some body, [0])) := by
  intro bodies remark
  have hshort : Short bodies := by
    intro body hbody
    simp only [bodies, List.mem_cons, List.not_mem_nil, or_false] at hbody
    rcases hbody with rfl | rfl | rfl <;> decide
  have hsize : (Encoding.enveloped.nodeBody remark).length < UInt64.size := by decide +kernel
  have hsequence := messages_self_delimiting hshort [0]
  obtain ⟨s', htakes, hs', -⟩ := hsequence.1 _ (ByteStream.holds_ofBytes _)
  exact ⟨hshort, ⟨s', htakes, hs'⟩, hsequence.2 .enveloped remark _ rfl hsize⟩

end ScanArchive.Framing
