import ScanArchive.Framing.Basic

/-!
# Readings of streams

What a reading gives depends on the bytes of the stream only, whatever the portions in which
they come and however often reads are interrupted, as long as no read fails (`Gives`); where one
fails, the reading fails as well or does not get that far (`GivesOrFails`).
-/

namespace ScanArchive

/-! ## 1. Reads -/

namespace ByteStream

/-- No read fails, and these are the bytes still to be read. -/
structure Holds (s : ByteStream) (bytes : Bytes) : Prop where
  fault : s.fault = none
  rest : s.rest = bytes

theorem holds_ofBytes (bytes : Bytes) : (ofBytes bytes).Holds bytes := ⟨rfl, rfl⟩

def FailsWith (s : ByteStream) (fault : StreamFault) : Prop :=
  ∃ position, s.fault = some (position, fault)

/-- The position from which on reads fail in this way is less than `distance` bytes ahead. -/
def FailsWithin (s : ByteStream) (distance : Nat) (fault : StreamFault) : Prop :=
  ∃ position, s.fault = some (position, fault) ∧ position - s.position < distance

/-- Less than `distance` bytes ahead, reads fail and say that the data ended. -/
def CutsWithin (s : ByteStream) (distance : Nat) : Prop :=
  ∃ fault, s.FailsWithin distance fault ∧ fault.kind = .unexpectedEnd

/-- The bytes in front of the position from which on reads fail. -/
def reached (s : ByteStream) : Bytes :=
  match s.fault with
  | some (position, _) => s.rest.take (position - s.position)
  | none => s.rest

/--
What a stream comes to when `left` of it is still to be read: it fails where it did before, and not
in front of what has been read.
-/
structure Leaves (s : ByteStream) (left : Bytes) (s' : ByteStream) : Prop where
  rest : s'.rest = left
  fault : s'.fault = s.fault
  position : s'.position + left.length = s.position + s.rest.length
  clear : ∀ fault, ¬ s.FailsWithin (s'.position - s.position) fault

variable {s s' : ByteStream} {want distance : Nat} {bytes left : Bytes} {fault : StreamFault}

theorem FailsWithin.failsWith (h : s.FailsWithin distance fault) : s.FailsWith fault := by
  obtain ⟨position, hfault, -⟩ := h
  exact ⟨position, hfault⟩

theorem not_failsWithin_zero (s : ByteStream) (fault : StreamFault) : ¬ s.FailsWithin 0 fault := by
  rintro ⟨position, -, hnear⟩
  exact absurd hnear (Nat.not_lt_zero _)

theorem not_cutsWithin_zero (s : ByteStream) : ¬ s.CutsWithin 0 := by
  rintro ⟨fault, hfails, -⟩
  exact s.not_failsWithin_zero fault hfails

theorem Holds.not_failsWith (h : s.Holds bytes) (fault : StreamFault) : ¬ s.FailsWith fault := by
  rintro ⟨position, hfault⟩
  rw [h.fault] at hfault
  cases hfault

theorem Holds.not_cutsWithin (h : s.Holds bytes) (distance : Nat) : ¬ s.CutsWithin distance := by
  rintro ⟨fault, hfails, -⟩
  exact h.not_failsWith fault hfails.failsWith

theorem kind_of_not_cutsWithin (s : ByteStream) (h : ¬ s.CutsWithin distance)
    (hfails : s.FailsWithin distance fault) : fault.kind = .other := by
  cases hkind : fault.kind with
  | unexpectedEnd => exact absurd ⟨fault, hfails, hkind⟩ h
  | other => rfl

namespace Leaves

theorem holds (h : s.Leaves left s') (hs : s.Holds bytes) : s'.Holds left :=
  ⟨h.fault.trans hs.fault, h.rest⟩

theorem failsWith (h : s.Leaves left s') (hfails : s'.FailsWith fault) : s.FailsWith fault := by
  obtain ⟨position, hfault⟩ := hfails
  exact ⟨position, h.fault ▸ hfault⟩

theorem failsWithin (h : s.Leaves left s') (hfails : s'.FailsWithin distance fault) :
    s.FailsWithin (s.rest.length - left.length + distance) fault := by
  obtain ⟨position, hfault, hnear⟩ := hfails
  have hposition := h.position
  exact ⟨position, h.fault ▸ hfault, by omega⟩

theorem trans {s₁ s₂ : ByteStream} (h : s.Leaves left s₁) (h' : s₁.Leaves bytes s₂) :
    s.Leaves bytes s₂ where
  rest := h'.rest
  fault := h'.fault.trans h.fault
  position := by rw [h'.position, h.rest, h.position]
  clear := by
    rintro fault ⟨position, hfault, hnear⟩
    -- neither of the two parts goes as far as the failure
    have hfirst : ¬ position - s.position < s₁.position - s.position :=
      fun hlt => h.clear fault ⟨position, hfault, hlt⟩
    have hsecond : ¬ position - s₁.position < s₂.position - s₁.position :=
      fun hlt => h'.clear fault ⟨position, h.fault ▸ hfault, hlt⟩
    omega

end Leaves

theorem leaves_refl (s : ByteStream) : s.Leaves s.rest s :=
  ⟨rfl, rfl, rfl, fun fault => by rw [Nat.sub_self]; exact s.not_failsWithin_zero fault⟩

theorem allowance_bounds (h : s.faultHere? = none) (hwant : 0 < want) :
    0 < s.allowance want ∧ s.allowance want ≤ want := by
  have hportion : ∀ n : { n : Nat // 0 < n }, 0 < min want n.1 := fun n => by
    have hn := n.2
    omega
  unfold faultHere? at h
  unfold allowance
  cases hf : s.fault with
  | none =>
    cases s.portion with
    | none => exact ⟨hwant, Nat.le_refl _⟩
    | some n => exact ⟨hportion n, Nat.min_le_left _ _⟩
  | some f =>
    -- the failure is still ahead
    rw [hf] at h
    simp only [ite_eq_right_iff, reduceCtorEq, imp_false, Nat.not_le] at h
    cases s.portion with
    | none =>
      simp only
      omega
    | some n =>
      have hpos := hportion n
      simp only
      omega

theorem not_failsWithin_allowance (s : ByteStream) (want : Nat) (fault : StreamFault) :
    ¬ s.FailsWithin (s.allowance want) fault := by
  rintro ⟨position, hfault, hnear⟩
  unfold allowance at hnear
  rw [hfault] at hnear
  simp only at hnear
  omega

/--
A read is interrupted, fails as the stream does at this position, or takes off at most what is
asked for, and nothing at the end only.
-/
theorem read_spec (s : ByteStream) (hwant : 0 < want) :
    match s.read want with
    | (.interrupted, s') => s.Leaves s.rest s'
    | (.failed fault, _) => s.FailsWithin 1 fault
    | (.given front, s') => ∃ rest, s.rest = front ++ rest ∧ s.Leaves rest s' ∧
        front.length ≤ want ∧ (front = [] → s.rest = []) := by
  unfold read
  cases s.pending with
  | succ pending => exact ⟨rfl, rfl, rfl, s.leaves_refl.clear⟩
  | zero =>
    cases hhere : s.faultHere? with
    | some fault =>
      unfold faultHere? at hhere
      split at hhere
      · rename_i position fault' hfault
        obtain ⟨hposition, rfl⟩ := by simpa using hhere
        exact ⟨position, hfault, by omega⟩
      · cases hhere
    | none =>
      -- what is given ends in front of the failure, if there is one ahead
      obtain ⟨hpos, hle⟩ := allowance_bounds hhere hwant
      have hlength : (s.rest.take (s.allowance want)).length ≤ s.allowance want :=
        List.length_take_le _ _
      refine ⟨_, (List.take_append_drop _ _).symm, ⟨rfl, rfl, ?_, ?_⟩, Nat.le_trans hlength hle, ?_⟩
      · show s.position + (s.rest.take (s.allowance want)).length
          + (s.rest.drop (s.allowance want)).length = _
        rw [List.length_take, List.length_drop]
        omega
      · rintro fault ⟨position, hfault, hnear⟩
        change _ < s.position + (s.rest.take (s.allowance want)).length - s.position at hnear
        rw [Nat.add_sub_cancel_left] at hnear
        exact s.not_failsWithin_allowance want fault
          ⟨position, hfault, Nat.lt_of_lt_of_le hnear hlength⟩
      · exact fun hnil => (List.take_eq_nil_iff.1 hnil).resolve_left (by omega)

/-- The portions are put together again, or reading fails as the stream does before it is done. -/
theorem fillFrom_cases (s : ByteStream) (want : Nat) (portions : List Bytes) :
    (∃ s', s.fillFrom want portions
        = .ok (portions.reverse.flatten ++ s.rest.take want, s') ∧
      s.Leaves (s.rest.drop want) s') ∨
    ∃ fault, s.FailsWithin want fault ∧ s.fillFrom want portions = .error fault := by
  -- reading goes on after an interruption and ends with the stream
  fun_induction fillFrom s want portions with
  | case1 s portions =>
    exact .inl ⟨s, by rw [List.take_zero, List.append_nil], s.leaves_refl⟩
  | case2 s want portions hwant s₁ hread _ ih =>
    have hleaves := s.read_spec (Nat.pos_of_ne_zero hwant)
    rw [hread] at hleaves
    rw [hleaves.rest] at ih
    obtain ⟨s₂, hfill, hs₂⟩ | ⟨fault, hfails, hfill⟩ := ih
    · exact .inl ⟨s₂, hfill, hleaves.trans hs₂⟩
    · have hbefore := hleaves.failsWithin hfails
      rw [Nat.sub_self, Nat.zero_add] at hbefore
      exact .inr ⟨fault, hbefore, hfill⟩
  | case3 s want portions hwant fault s₁ hread =>
    have hfails := s.read_spec (Nat.pos_of_ne_zero hwant)
    rw [hread] at hfails
    obtain ⟨position, hfault, hnear⟩ := hfails
    exact .inr ⟨fault, ⟨position, hfault, by omega⟩, rfl⟩
  | case4 s want portions hwant s₁ hread =>
    have hgiven := s.read_spec (Nat.pos_of_ne_zero hwant)
    rw [hread] at hgiven
    obtain ⟨rest, hrest, hleaves, -, hnil⟩ := hgiven
    have hend := hnil rfl
    obtain rfl : rest = [] := by simpa [hend] using hrest.symm
    refine .inl ⟨s₁, by rw [hend, List.take_nil, List.append_nil], ?_⟩
    rwa [hend, List.drop_nil]
  | case5 s want portions hwant b front s₁ hread ih =>
    have hgiven := s.read_spec (Nat.pos_of_ne_zero hwant)
    rw [hread] at hgiven
    obtain ⟨rest, hrest, hleaves, hlen, -⟩ := hgiven
    rw [hleaves.rest] at ih
    rw [List.length_cons] at hlen
    obtain ⟨s₂, hfill, hs₂⟩ | ⟨fault, hfails, hfill⟩ := ih
    · have htake : s.rest.take want = (b :: front) ++ rest.take (want - (front.length + 1)) := by
        rw [hrest, List.take_append, List.take_of_length_le hlen, List.length_cons]
      have hdrop : s.rest.drop want = rest.drop (want - (front.length + 1)) := by
        rw [hrest, List.drop_append, List.drop_of_length_le hlen, List.nil_append,
          List.length_cons]
      refine .inl ⟨s₂, ?_, hdrop ▸ hleaves.trans hs₂⟩
      rw [hfill, htake]
      simp
    · have hbefore := hleaves.failsWithin hfails
      have hdistance : s.rest.length - rest.length + (want - (front.length + 1)) = want := by
        rw [hrest, List.length_append, List.length_cons]
        omega
      rw [hdistance] at hbefore
      exact .inr ⟨fault, hbefore, hfill⟩

theorem fill_cases (s : ByteStream) (want : Nat) :
    (∃ s', s.fill want = .ok (s.rest.take want, s') ∧ s.Leaves (s.rest.drop want) s') ∨
    ∃ fault, s.FailsWithin want fault ∧ s.fill want = .error fault :=
  s.fillFrom_cases want []

end ByteStream

namespace Framing

variable {α β : Type}

/-! ## 2. Readings of streams that may fail -/

/--
On every stream that holds `bytes` the reading comes to this result: a value and the bytes that
it leaves, or an error.
-/
def Gives (r : Reading α) (bytes : Bytes) : Except Error (α × Bytes) → Prop
  | .ok (a, left) => ∀ s : ByteStream, s.Holds bytes → ∃ s', r s = .ok (a, s') ∧ s'.Holds left
  | .error e => ∀ s : ByteStream, s.Holds bytes → r s = .error e

/--
On every stream with `bytes` still to be read, the reading comes to this result or fails as the
stream does.  The first `reach` bytes are read as numbers, in which no read must say that the data
ended.
-/
def GivesOrFails (reach : Nat) (r : Reading α) (bytes : Bytes)
    (result : Except Error (α × Bytes)) : Prop :=
  ∀ s : ByteStream, s.rest = bytes → ¬ s.CutsWithin reach →
    (match result with
      | .ok (a, left) => ∃ s', r s = .ok (a, s') ∧ s.Leaves left s'
      | .error e => r s = .error e) ∨
    ∃ fault, s.FailsWith fault ∧ r s = .error (.io fault.reason)

variable {reach : Nat}

theorem GivesOrFails.gives {r : Reading α} {bytes : Bytes} {result : Except Error (α × Bytes)}
    (h : GivesOrFails reach r bytes result) : Gives r bytes result := by
  cases result with
  | error e =>
    intro s hs
    exact (h s hs.rest (hs.not_cutsWithin reach)).resolve_right
      fun ⟨fault, hfails, _⟩ => hs.not_failsWith fault hfails
  | ok found =>
    intro s hs
    obtain ⟨s', hr, hleaves⟩ := (h s hs.rest (hs.not_cutsWithin reach)).resolve_right
      fun ⟨fault, hfails, _⟩ => hs.not_failsWith fault hfails
    exact ⟨s', hr, hleaves.holds hs⟩

theorem GivesOrFails.mono {reach' : Nat} {r : Reading α} {bytes : Bytes}
    {result : Except Error (α × Bytes)} (h : GivesOrFails reach r bytes result)
    (hle : reach ≤ reach') : GivesOrFails reach' r bytes result := by
  intro s hs hcut
  refine h s hs fun ⟨fault, ⟨position, hfault, hnear⟩, hkind⟩ => hcut ?_
  exact ⟨fault, ⟨position, hfault, Nat.lt_of_lt_of_le hnear hle⟩, hkind⟩

theorem givesOrFails_pure (a : α) (bytes : Bytes) :
    GivesOrFails reach (pure a) bytes (.ok (a, bytes)) := by
  rintro s rfl -
  exact .inl ⟨s, rfl, s.leaves_refl⟩

theorem givesOrFails_throw (e : Error) (bytes : Bytes) :
    GivesOrFails reach (throw e : Reading α) bytes (.error e) :=
  fun _ _ _ => .inl rfl

theorem givesOrFails_lift {e : Except Error α} {a : α} (he : e = .ok a) (bytes : Bytes) :
    GivesOrFails reach (liftM e) bytes (.ok (a, bytes)) := by
  subst he
  exact givesOrFails_pure a bytes

theorem givesOrFails_lift_error {result : Except Error α} {e : Error} (he : result = .error e)
    (bytes : Bytes) : GivesOrFails reach (liftM result) bytes (.error e) := by
  subst he
  exact givesOrFails_throw e bytes

theorem givesOrFails_take (count : Nat) (bytes : Bytes) :
    GivesOrFails reach (take count) bytes (.ok (bytes.take count, bytes.drop count)) := by
  rintro s rfl -
  obtain ⟨s', hfill, hleaves⟩ | ⟨fault, hfails, hfill⟩ := s.fill_cases count
  · exact .inl ⟨s', by rw [take, hfill]; rfl, hleaves⟩
  · exact .inr ⟨fault, hfails.failsWith, by rw [take, hfill]; rfl⟩

theorem givesOrFails_takeAll (bytes : Bytes) :
    GivesOrFails reach takeAll bytes (.ok (bytes, [])) := by
  rintro s rfl hcut
  have htake := givesOrFails_take (s.rest.length + 1) s.rest s rfl hcut
  rwa [List.take_of_length_le (Nat.le_succ _), List.drop_of_length_le (Nat.le_succ _)] at htake

/-- The second reading begins where the first one ends, so that its numbers stand farther behind. -/
theorem GivesOrFails.bind_behind {reach' : Nat} {m : Reading α} {f : α → Reading β}
    {bytes left : Bytes} {a : α} {result : Except Error (β × Bytes)}
    (hm : GivesOrFails reach m bytes (.ok (a, left)))
    (hf : GivesOrFails reach' (f a) left result)
    (hreach : 0 < reach' → bytes.length - left.length + reach' ≤ reach) :
    GivesOrFails reach (m >>= f) bytes result := by
  intro s hs hcut
  simp only [Bind.bind, StateT.bind, Except.bind]
  -- `m` fails, or `f` goes on where `m` has left off
  rcases hm s hs hcut with ⟨s', hms, hleaves⟩ | ⟨fault, hfails, hms⟩
  · rw [hms]
    have hcut' : ¬ s'.CutsWithin reach' := by
      rintro ⟨fault, ⟨position, hfault, hnear⟩, hkind⟩
      obtain ⟨position', hfault', hnear'⟩ := hleaves.failsWithin ⟨position, hfault, hnear⟩
      rw [hs] at hnear'
      have hnear'' := Nat.lt_of_lt_of_le hnear' (hreach (by omega))
      exact hcut ⟨fault, ⟨position', hfault', hnear''⟩, hkind⟩
    refine (hf s' hleaves.rest hcut').imp (fun hgives => ?_) fun ⟨fault, hfails, hr⟩ =>
      ⟨fault, hleaves.failsWith hfails, hr⟩
    cases result with
    | error e => exact hgives
    | ok found =>
      obtain ⟨s'', hr, hleaves'⟩ := hgives
      exact ⟨s'', hr, hleaves.trans hleaves'⟩
  · exact .inr ⟨fault, hfails, by rw [hms]⟩

theorem GivesOrFails.bind {m : Reading α} {f : α → Reading β} {bytes left : Bytes}
    {a : α} {result : Except Error (β × Bytes)} (hm : GivesOrFails reach m bytes (.ok (a, left)))
    (hf : GivesOrFails 0 (f a) left result) : GivesOrFails reach (m >>= f) bytes result :=
  hm.bind_behind hf fun hpos => absurd hpos (Nat.lt_irrefl 0)

theorem GivesOrFails.bind_error {m : Reading α} {f : α → Reading β} {bytes : Bytes} {e : Error}
    (hm : GivesOrFails reach m bytes (.error e)) :
    GivesOrFails reach (m >>= f) bytes (.error e) := by
  intro s hs hcut
  simp only [Bind.bind, StateT.bind, Except.bind]
  rcases hm s hs hcut with hms | ⟨fault, hfails, hms⟩
  · exact .inl (by rw [hms])
  · exact .inr ⟨fault, hfails, by rw [hms]⟩

/-! ## 3. Readings of streams that do not fail -/

theorem gives_pure (a : α) (bytes : Bytes) : Gives (pure a) bytes (.ok (a, bytes)) :=
  (givesOrFails_pure a bytes : GivesOrFails 0 _ _ _).gives

theorem gives_throw (e : Error) (bytes : Bytes) : Gives (throw e : Reading α) bytes (.error e) :=
  (givesOrFails_throw e bytes : GivesOrFails 0 _ _ _).gives

theorem gives_lift {e : Except Error α} {a : α} (he : e = .ok a) (bytes : Bytes) :
    Gives (liftM e) bytes (.ok (a, bytes)) :=
  (givesOrFails_lift he bytes : GivesOrFails 0 _ _ _).gives

theorem gives_lift_error {result : Except Error α} {e : Error} (he : result = .error e)
    (bytes : Bytes) : Gives (liftM result) bytes (.error e) :=
  (givesOrFails_lift_error he bytes : GivesOrFails 0 _ _ _).gives

theorem gives_take (count : Nat) (bytes : Bytes) :
    Gives (take count) bytes (.ok (bytes.take count, bytes.drop count)) :=
  (givesOrFails_take count bytes : GivesOrFails 0 _ _ _).gives

theorem gives_take_append {count : Nat} {front : Bytes} (h : front.length = count)
    (rest : Bytes) :
    Gives (take count) (front ++ rest) (.ok (front, rest)) := by
  have hread := gives_take count (front ++ rest)
  rwa [List.take_left' h, List.drop_left' h] at hread

theorem gives_takeAll (bytes : Bytes) : Gives takeAll bytes (.ok (bytes, [])) :=
  (givesOrFails_takeAll bytes : GivesOrFails 0 _ _ _).gives

theorem Gives.bind {m : Reading α} {f : α → Reading β} {bytes left : Bytes} {a : α}
    {result : Except Error (β × Bytes)} (hm : Gives m bytes (.ok (a, left)))
    (hf : Gives (f a) left result) : Gives (m >>= f) bytes result := by
  cases result with
  | error e =>
    intro s hs
    obtain ⟨s', hms, hs'⟩ := hm s hs
    simp only [Bind.bind, StateT.bind, Except.bind, hms]
    exact hf s' hs'
  | ok found =>
    intro s hs
    obtain ⟨s', hms, hs'⟩ := hm s hs
    simp only [Bind.bind, StateT.bind, Except.bind, hms]
    exact hf s' hs'

theorem Gives.bind_error {m : Reading α} {f : α → Reading β} {bytes : Bytes} {e : Error}
    (hm : Gives m bytes (.error e)) : Gives (m >>= f) bytes (.error e) := by
  intro s hs
  simp only [Bind.bind, StateT.bind, Except.bind, hm s hs]

theorem Gives.map {m : Reading α} (f : α → β) {bytes : Bytes}
    {result : Except Error (α × Bytes)} (hm : Gives m bytes result) :
    Gives (f <$> m) bytes (result.map fun found => (f found.1, found.2)) := by
  rw [← bind_pure_comp]
  cases result with
  | error e => exact hm.bind_error
  | ok found => exact hm.bind (gives_pure _ _)

theorem Gives.map_value {γ : Type} {r : Reading α} {bytes : Bytes}
    {result : Except Error (α × Bytes)} (h : Gives r bytes result) {s : ByteStream}
    (hs : s.Holds bytes) (f : α → γ) :
    (r s).map (fun found => f found.1) = result.map fun found => f found.1 := by
  cases result with
  | error e => rw [show r s = .error e from h s hs]; rfl
  | ok found =>
    obtain ⟨s', hr, -⟩ := h s hs
    rw [hr]
    rfl

theorem Gives.value {r : Reading α} {bytes : Bytes} {result : Except Error (α × Bytes)}
    (h : Gives r bytes result) {s : ByteStream} (hs : s.Holds bytes) :
    (r s).map (·.1) = result.map (·.1) := h.map_value hs id

/-- On the streams that hold the same bytes a reading comes to one result at most. -/
theorem Gives.unique {r : Reading α} {bytes : Bytes} {result result' : Except Error (α × Bytes)}
    (h : Gives r bytes result) (h' : Gives r bytes result') : result = result' := by
  have hs := ByteStream.holds_ofBytes bytes
  cases result with
  | error e =>
    have hr : r (.ofBytes bytes) = .error e := h _ hs
    cases result' with
    | error e' =>
      have hr' : r (.ofBytes bytes) = .error e' := h' _ hs
      rw [← Except.error.inj (hr.symm.trans hr')]
    | ok found' =>
      obtain ⟨s', hr', -⟩ := h' _ hs
      cases hr.symm.trans hr'
  | ok found =>
    obtain ⟨s', hr, hs'⟩ := h _ hs
    cases result' with
    | error e' => cases hr.symm.trans (h' _ hs)
    | ok found' =>
      obtain ⟨s'', hr', hs''⟩ := h' _ hs
      obtain ⟨hvalue, rfl⟩ := Prod.mk.inj (Except.ok.inj (hr.symm.trans hr'))
      rw [Except.ok.injEq, Prod.ext_iff]
      exact ⟨hvalue, hs'.rest.symm.trans hs''.rest⟩

/-! ## 4. Readings that the portions do not matter to -/

/-- What the reading comes to depends on the bytes of the stream only. -/
def Steady (r : Reading α) : Prop := ∀ bytes, ∃ result, Gives r bytes result

/--
What the reading comes to depends on the bytes of the stream only, if it does not fail; the numbers
that it reads are among the first `reach` bytes.
-/
def Robust (reach : Nat) (r : Reading α) : Prop :=
  ∀ bytes, ∃ result, GivesOrFails reach r bytes result

theorem Robust.steady {r : Reading α} (hr : Robust reach r) : Steady r := fun bytes => by
  obtain ⟨result, hresult⟩ := hr bytes
  exact ⟨result, hresult.gives⟩

theorem Robust.givesOrFails {r : Reading α} (hr : Robust reach r) {bytes : Bytes}
    {result : Except Error (α × Bytes)} (h : Gives r bytes result) :
    GivesOrFails reach r bytes result := by
  obtain ⟨result', hresult'⟩ := hr bytes
  rwa [h.unique hresult'.gives]

theorem robust_pure (a : α) : Robust reach (pure a : Reading α) :=
  fun bytes => ⟨_, givesOrFails_pure a bytes⟩

theorem robust_throw (e : Error) : Robust reach (throw e : Reading α) :=
  fun bytes => ⟨_, givesOrFails_throw e bytes⟩

theorem robust_lift (result : Except Error α) : Robust reach (liftM result : Reading α) := by
  cases result with
  | error e => exact robust_throw e
  | ok a => exact robust_pure a

theorem Robust.bind {m : Reading α} {f : α → Reading β} (hm : Robust reach m)
    (hf : ∀ a, Robust 0 (f a)) : Robust reach (m >>= f) := by
  intro bytes
  obtain ⟨result, hm⟩ := hm bytes
  cases result with
  | error e => exact ⟨_, hm.bind_error⟩
  | ok found =>
    obtain ⟨result, hf⟩ := hf found.1 found.2
    exact ⟨result, hm.bind hf⟩

theorem Robust.map {r : Reading α} (hr : Robust reach r) (f : α → β) : Robust reach (f <$> r) := by
  rw [← bind_pure_comp]
  exact hr.bind fun a => robust_pure (f a)

theorem robust_take (count : Nat) : Robust reach (take count) :=
  fun bytes => ⟨_, givesOrFails_take count bytes⟩

theorem robust_takeAll : Robust reach takeAll :=
  fun bytes => ⟨_, givesOrFails_takeAll bytes⟩

theorem Steady.value_eq {r : Reading α} (hr : Steady r) {s s' : ByteStream} {bytes : Bytes}
    (hs : s.Holds bytes) (hs' : s'.Holds bytes) : (r s).map (·.1) = (r s').map (·.1) := by
  obtain ⟨result, hresult⟩ := hr bytes
  rw [hresult.value hs, hresult.value hs']

theorem Steady.gives_of_eq_ok {r : Reading α} (hr : Steady r) {s s' : ByteStream} {bytes : Bytes}
    {a : α} (hs : s.Holds bytes) (h : r s = .ok (a, s')) :
    ∃ left, Gives r bytes (.ok (a, left)) := by
  obtain ⟨result, hresult⟩ := hr bytes
  cases result with
  | error e =>
    rw [show r s = .error e from hresult s hs] at h
    cases h
  | ok found =>
    obtain ⟨s'', hread, -⟩ := hresult s hs
    rw [h] at hread
    cases hread
    exact ⟨found.2, hresult⟩

/-! ## 5. Types and versions -/

theorem length_encodeInt16 (v : Int16) : (encodeInt16 v).length = 2 := Bytes.length_toBigEndian 2 _

theorem decodeInt16_encodeInt16 (v : Int16) : decodeInt16 (encodeInt16 v) = v := by
  have hlt : v.toUInt16.toNat < Nat.pow 256 2 := v.toUInt16.toNat_lt
  rw [decodeInt16, encodeInt16, Bytes.bigEndian_toBigEndian, Nat.mod_eq_of_lt hlt, Nat.toUInt16,
    UInt16.ofNat_toNat, Int16.toInt16_toUInt16]

theorem decodeInt16_take (v : Int16) (rest : Bytes) :
    decodeInt16 ((encodeInt16 v ++ rest).take 2) = v := by
  rw [List.take_left' (length_encodeInt16 v), decodeInt16_encodeInt16]

theorem length_encodePrefix (type : EntryType) (version : Int16) :
    (encodePrefix type version).length = Layout.prefixLength := by
  rw [encodePrefix, List.length_append, length_encodeInt16, length_encodeInt16]
  rfl

theorem decodeType_code (type : EntryType) : decodeType type.code = .ok type := by
  rw [decodeType, EntryType.ofCode?_code]

theorem takeExact_cases (count : Nat) (part : FramingFault) (s : ByteStream) :
    (count ≤ s.rest.length ∧ ∃ s', takeExact count part s = .ok (s.rest.take count, s') ∧
      s.Leaves (s.rest.drop count) s') ∨
    (s.rest.length < count ∧ takeExact count part s = .error (.framing part)) ∨
    ∃ fault, s.FailsWithin count fault ∧
      takeExact count part s = .error (truncated part fault) := by
  unfold takeExact ByteStream.fillExact
  obtain ⟨s', hfill, hleaves⟩ | ⟨fault, hfails, hfill⟩ := s.fill_cases count
  · rw [hfill]
    by_cases hshort : s.rest.length < count
    · refine .inr (.inl ⟨hshort, ?_⟩)
      rw [List.take_of_length_le (Nat.le_of_lt hshort)]
      show Except.mapError _ (if _ then _ else _) = _
      rw [if_pos hshort]
      rfl
    · have henough := Nat.not_lt.1 hshort
      refine .inl ⟨henough, s', ?_, hleaves⟩
      show Except.mapError _ (if _ then _ else _) = _
      rw [if_neg (by rw [List.length_take_of_le henough]; exact Nat.lt_irrefl count)]
      rfl
  · exact .inr (.inr ⟨fault, hfails, by rw [hfill]; rfl⟩)

theorem givesOrFails_takeExact {count : Nat} {bytes : Bytes} (part : FramingFault)
    (h : count ≤ bytes.length) :
    GivesOrFails count (takeExact count part) bytes
      (.ok (bytes.take count, bytes.drop count)) := by
  rintro s rfl hcut
  rcases takeExact_cases count part s with
    ⟨-, hall⟩ | ⟨hshort, -⟩ | ⟨fault, hfails, hread⟩
  · exact .inl hall
  · exact absurd hshort (Nat.not_lt.2 h)
  · rw [truncated, s.kind_of_not_cutsWithin hcut hfails] at hread
    exact .inr ⟨fault, hfails.failsWith, hread⟩

theorem givesOrFails_takeExact_of_lt {count : Nat} {bytes : Bytes} (part : FramingFault)
    (h : bytes.length < count) :
    GivesOrFails count (takeExact count part) bytes (.error (.framing part)) := by
  rintro s rfl hcut
  rcases takeExact_cases count part s with
    ⟨henough, -⟩ | ⟨-, hread⟩ | ⟨fault, hfails, hread⟩
  · exact absurd h (Nat.not_lt.2 henough)
  · exact .inl hread
  · rw [truncated, s.kind_of_not_cutsWithin hcut hfails] at hread
    exact .inr ⟨fault, hfails.failsWith, hread⟩

theorem gives_readInt16 (part : FramingFault) (v : Int16) (rest : Bytes) :
    Gives (readInt16 part) (encodeInt16 v ++ rest) (.ok (v, rest)) := by
  have hlength : 2 ≤ (encodeInt16 v ++ rest).length := by
    rw [List.length_append, length_encodeInt16]
    exact Nat.le_add_right 2 _
  have htake := (givesOrFails_takeExact part hlength).gives
  rw [List.take_left' (length_encodeInt16 v), List.drop_left' (length_encodeInt16 v)] at htake
  refine htake.bind ?_
  rw [decodeInt16_encodeInt16]
  exact gives_pure v rest

theorem gives_readInt16_of_lt (part : FramingFault) {bytes : Bytes} (h : bytes.length < 2) :
    Gives (readInt16 part) bytes (.error (.framing part)) :=
  (givesOrFails_takeExact_of_lt part h).gives.bind_error

theorem robust_takeExact (count : Nat) (part : FramingFault) :
    Robust count (takeExact count part) := by
  intro bytes
  by_cases h : bytes.length < count
  · exact ⟨_, givesOrFails_takeExact_of_lt part h⟩
  · exact ⟨_, givesOrFails_takeExact part (Nat.not_lt.1 h)⟩

theorem robust_readInt16 (part : FramingFault) : Robust 2 (readInt16 part) :=
  (robust_takeExact 2 part).bind fun _ => robust_pure _

theorem gives_readPrefix_of_code (code version : Int16) (rest : Bytes) :
    Gives readPrefix (encodeInt16 code ++ (encodeInt16 version ++ rest))
      ((decodeType code).map fun type => ((type, version), rest)) := by
  have hfront : (encodeInt16 code ++ encodeInt16 version).take 2 = encodeInt16 code :=
    List.take_left' (length_encodeInt16 _)
  have hback : (encodeInt16 code ++ encodeInt16 version).drop 2 = encodeInt16 version :=
    List.drop_left' (length_encodeInt16 _)
  have hlength : (encodeInt16 code ++ encodeInt16 version).length = Layout.prefixLength := by
    rw [List.length_append, length_encodeInt16, length_encodeInt16]
    rfl
  rw [← List.append_assoc]
  refine (gives_take_append hlength rest).bind ?_
  rw [if_neg (by rw [hlength]; decide), hfront, hback, decodeInt16_encodeInt16,
    decodeInt16_encodeInt16]
  cases htype : decodeType code with
  | error e => exact (gives_lift_error rfl rest).bind_error
  | ok type => exact (gives_lift rfl rest).bind (gives_pure _ rest)

theorem gives_readPrefix (type : EntryType) (version : Int16) (rest : Bytes) :
    Gives readPrefix (encodePrefix type version ++ rest) (.ok ((type, version), rest)) := by
  have hread := gives_readPrefix_of_code type.code version rest
  rw [decodeType_code, ← List.append_assoc] at hread
  exact hread

theorem gives_isHeader (code : Int16) (rest : Bytes) :
    Gives isHeader (encodeInt16 code ++ rest)
      (.ok (decide (code = EntryType.header.code), rest)) :=
  (gives_readInt16 .truncatedType code rest).bind (gives_pure _ rest)

end Framing
end ScanArchive
