import ScanArchive.Header

/-!
# Instants and timestamps

A timestamp stands for a number of nanoseconds, and the instant that it gives is the one that lies
as many nanoseconds from the start of 1970: `ofTimestamp?_exact`.  An instant is read back from its
own timestamp just when it is in no leap second: `created?_withCreationTime_iff`.
-/

namespace ScanArchive

/-! ## 1. Normalization -/

namespace Timestamp

/-- The nanoseconds since the start of 1970. -/
def total (t : Timestamp) : Int := t.seconds.toInt * nanosPerSecond + t.nanos.toInt

/-- Having nanoseconds that are less than a second. -/
def IsNormal (t : Timestamp) : Prop := 0 ≤ t.nanos.toInt ∧ t.nanos.toInt < nanosPerSecond

instance (t : Timestamp) : Decidable t.IsNormal := inferInstanceAs (Decidable (_ ∧ _))

def minTotal : Int := minSeconds * nanosPerSecond

def maxTotal : Int := maxSeconds * nanosPerSecond + (nanosPerSecond - 1)

theorem toInt_ofInt_seconds {n : Int} (hmin : minSeconds ≤ n) (hmax : n ≤ maxSeconds) :
    (Int64.ofInt n).toInt = n := by
  apply Int64.toInt_ofInt_of_le
  · exact hmin
  · simp only [maxSeconds] at hmax
    omega

theorem toInt_ofInt_nanos {n : Int} (hmin : -nanosPerSecond < n) (hmax : n < 2 * nanosPerSecond) :
    (Int32.ofInt n).toInt = n := by
  simp only [nanosPerSecond] at hmin hmax
  apply Int32.toInt_ofInt_of_le <;> omega

theorem seconds_bounds (t : Timestamp) :
    minSeconds ≤ t.seconds.toInt ∧ t.seconds.toInt ≤ maxSeconds := by
  have hmin := t.seconds.le_toInt
  have hmax := t.seconds.toInt_lt
  simp only [minSeconds, maxSeconds]
  omega

theorem tdiv_tmod_cases (n : Int) :
    n = n.tdiv nanosPerSecond * nanosPerSecond + n.tmod nanosPerSecond ∧
      (0 ≤ n.tdiv nanosPerSecond ∧ 0 ≤ n.tmod nanosPerSecond ∧
          n.tmod nanosPerSecond < nanosPerSecond ∨
        n.tdiv nanosPerSecond ≤ 0 ∧ n.tmod nanosPerSecond ≤ 0 ∧
          -nanosPerSecond < n.tmod nanosPerSecond) := by
  have hpos : 0 < nanosPerSecond := by decide
  have hsum := Int.mul_tdiv_add_tmod n nanosPerSecond
  have hlt := Int.tmod_lt_of_pos n hpos
  have hgt := Int.lt_tmod_of_pos n hpos
  rw [Int.mul_comm] at hsum
  refine ⟨hsum.symm, ?_⟩
  by_cases hn : 0 ≤ n
  · exact .inl ⟨Int.tdiv_nonneg hn (Int.le_of_lt hpos), Int.tmod_nonneg _ hn, hlt⟩
  · have hneg : 0 ≤ -n := by omega
    have hdiv := Int.tdiv_nonneg hneg (Int.le_of_lt hpos)
    have hmod := Int.tmod_nonneg nanosPerSecond hneg
    rw [Int.neg_tdiv] at hdiv
    rw [Int.neg_tmod] at hmod
    exact .inr ⟨by omega, by omega, hgt⟩

/-- Carrying keeps the total, or comes to an end of the range if the total is beyond it. -/
theorem carry_cases (t : Timestamp) :
    (t.total < minTotal ∧ t.carry.total = minTotal ∧ t.carry.nanos.toInt = 0) ∨
    (maxTotal < t.total ∧ t.carry.total = maxTotal ∧
      t.carry.nanos.toInt = nanosPerSecond - 1) ∨
    (t.carry.total = t.total ∧ -nanosPerSecond < t.carry.nanos.toInt ∧
      t.carry.nanos.toInt < nanosPerSecond) := by
  obtain ⟨hsum, hsign⟩ := tdiv_tmod_cases t.nanos.toInt
  obtain ⟨hmin, hmax⟩ := t.seconds_bounds
  have htotal : t.total = (t.seconds.toInt + t.nanos.toInt.tdiv nanosPerSecond) * nanosPerSecond
      + t.nanos.toInt.tmod nanosPerSecond := by
    rw [total, Int.add_mul]
    omega
  by_cases hlow : t.seconds.toInt + t.nanos.toInt.tdiv nanosPerSecond < minSeconds
  · -- the seconds fall short only where the rest is not positive
    have hcarry : t.carry = { seconds := Int64.ofInt minSeconds, nanos := 0 } := if_pos hlow
    rw [hcarry]
    refine .inl ⟨?_, rfl, rfl⟩
    rw [htotal, minTotal]
    simp only [nanosPerSecond] at hsign hlow ⊢
    omega
  · by_cases hhigh : maxSeconds < t.seconds.toInt + t.nanos.toInt.tdiv nanosPerSecond
    · have hcarry : t.carry = { seconds := Int64.ofInt maxSeconds, nanos := 999999999 } := by
        rw [carry, if_neg hlow, if_pos hhigh]
      rw [hcarry]
      refine .inr (.inl ⟨?_, rfl, rfl⟩)
      rw [htotal, maxTotal]
      simp only [nanosPerSecond] at hsign hhigh ⊢
      omega
    · have hcarry : t.carry =
          { seconds := Int64.ofInt (t.seconds.toInt + t.nanos.toInt.tdiv nanosPerSecond)
            nanos := Int32.ofInt (t.nanos.toInt.tmod nanosPerSecond) } := by
        rw [carry, if_neg hlow, if_neg hhigh]
      have hrest : -nanosPerSecond < t.nanos.toInt.tmod nanosPerSecond ∧
          t.nanos.toInt.tmod nanosPerSecond < nanosPerSecond := by
        simp only [nanosPerSecond] at hsign ⊢
        omega
      have hseconds := toInt_ofInt_seconds (Int.not_lt.1 hlow) (Int.not_lt.1 hhigh)
      have hnanos := toInt_ofInt_nanos hrest.1 (by simp only [nanosPerSecond] at hrest ⊢; omega)
      rw [hcarry]
      refine .inr (.inr ⟨?_, ?_⟩)
      · rw [total, hseconds, hnanos, htotal]
      · rw [hnanos]
        exact hrest

theorem borrow_cases {t : Timestamp} (hmin : -nanosPerSecond < t.nanos.toInt)
    (hmax : t.nanos.toInt < nanosPerSecond) :
    t.borrow.IsNormal ∧
      (t.borrow.total = t.total ∨ t.total < minTotal ∧ t.borrow.total = minTotal) := by
  obtain ⟨hfirst, hlast⟩ := t.seconds_bounds
  by_cases hnanos : 0 ≤ t.nanos.toInt
  · have hborrow : t.borrow = t := if_pos hnanos
    rw [hborrow]
    exact ⟨⟨hnanos, hmax⟩, .inl rfl⟩
  · by_cases hseconds : t.seconds.toInt = Timestamp.minSeconds
    · have hborrow : t.borrow = { t with nanos := 0 } := by
        rw [borrow, if_neg hnanos, if_pos hseconds]
      rw [hborrow]
      have hzero : (0 : Int) < nanosPerSecond := by decide
      refine ⟨⟨Int.le_refl 0, hzero⟩, .inr ⟨?_, ?_⟩⟩
      · rw [total, hseconds, minTotal]
        omega
      · show t.seconds.toInt * nanosPerSecond + 0 = minTotal
        rw [hseconds, minTotal, Int.add_zero]
    · have hborrow : t.borrow =
          { seconds := Int64.ofInt (t.seconds.toInt - 1)
            nanos := Int32.ofInt (t.nanos.toInt + nanosPerSecond) } := by
        rw [borrow, if_neg hnanos, if_neg hseconds]
      have htaken := toInt_ofInt_seconds (n := t.seconds.toInt - 1) (by omega) (by omega)
      have hgiven := toInt_ofInt_nanos (n := t.nanos.toInt + nanosPerSecond) (by omega) (by omega)
      rw [hborrow]
      refine ⟨?_, .inl ?_⟩
      · rw [IsNormal, hgiven]
        omega
      · rw [total, htaken, hgiven, total, Int.sub_mul]
        omega

theorem IsNormal.total_bounds {t : Timestamp} (h : t.IsNormal) :
    minTotal ≤ t.total ∧ t.total ≤ maxTotal := by
  obtain ⟨hmin, hmax⟩ := t.seconds_bounds
  obtain ⟨hnonneg, hlt⟩ := h
  rw [total, minTotal, maxTotal]
  simp only [nanosPerSecond] at hlt ⊢
  omega

/--
Normalization finds the normal timestamp with the same total, or that at the end of the range if
the total is beyond it.
-/
theorem normalize_spec (t : Timestamp) :
    t.normalize.IsNormal ∧ t.normalize.total = max minTotal (min t.total maxTotal) := by
  have hbounds : -nanosPerSecond < t.carry.nanos.toInt ∧
      t.carry.nanos.toInt < nanosPerSecond := by
    have hpos : 0 < nanosPerSecond := by decide
    obtain ⟨-, -, hnanos⟩ | ⟨-, -, hnanos⟩ | ⟨-, hnanos⟩ := t.carry_cases <;> omega
  obtain ⟨hnormal, hborrow⟩ := borrow_cases hbounds.1 hbounds.2
  have hrange := hnormal.total_bounds
  have hordered : minTotal ≤ maxTotal := by decide
  refine ⟨hnormal, ?_⟩
  show t.carry.borrow.total = _
  obtain ⟨hbeyond, hcarry, -⟩ | ⟨hbeyond, hcarry, -⟩ | ⟨hcarry, -⟩ := t.carry_cases <;> omega

theorem IsNormal.parts_eq {t : Timestamp} (h : t.IsNormal) :
    t.seconds.toInt = t.total / nanosPerSecond ∧ t.nanos.toInt = t.total % nanosPerSecond := by
  obtain ⟨hnonneg, hlt⟩ := h
  rw [total]
  simp only [nanosPerSecond] at hlt ⊢
  omega

end Timestamp

/-! ## 2. From timestamps to instants -/

namespace Instant

/-- The nanoseconds since the start of 1970; a leap second counts as part of the one after. -/
def total (t : Instant) : Int := t.seconds * nanosPerSecond + t.nanos

/-- Being a second of the years from -262143 to 262142. -/
def OnCalendar (seconds : Int) : Prop := minSeconds ≤ seconds ∧ seconds ≤ maxSeconds

/-- The calendar starts and ends with a year. -/
example : Date.ofDays (minSeconds / 86400) = ⟨-262143, 1, 1⟩ ∧ minSeconds % 86400 = 0 ∧
    Date.ofDays (maxSeconds / 86400) = ⟨262142, 12, 31⟩ ∧ maxSeconds % 86400 = 86399 := by
  decide

theorem of_ofParts?_eq_some {seconds : Int} {nanos : Nat} {t : Instant}
    (h : ofParts? seconds nanos = some t) :
    t = { seconds, nanos } ∧ OnCalendar seconds ∧ nanos < 2000000000 ∧
      (1000000000 ≤ nanos → seconds % 60 = 59) := by
  by_cases hout : seconds < minSeconds ∨ maxSeconds < seconds
  · rw [ofParts?, if_pos hout] at h
    cases h
  · by_cases hlarge : 2000000000 ≤ nanos
    · rw [ofParts?, if_neg hout, if_pos hlarge] at h
      cases h
    · by_cases hleap : 1000000000 ≤ nanos ∧ seconds % 60 ≠ 59
      · rw [ofParts?, if_neg hout, if_neg hlarge, if_pos hleap] at h
        cases h
      · rw [ofParts?, if_neg hout, if_neg hlarge, if_neg hleap] at h
        refine ⟨(Option.some.inj h).symm, ?_⟩
        rw [OnCalendar]
        omega

theorem ofParts?_of_not_onCalendar {seconds : Int} (h : ¬ OnCalendar seconds) (nanos : Nat) :
    ofParts? seconds nanos = none := by
  rw [OnCalendar] at h
  apply if_pos
  omega

theorem ofParts?_of_onCalendar {seconds : Int} (h : OnCalendar seconds) {nanos : Nat}
    (hnanos : nanos < 1000000000) : ofParts? seconds nanos = some { seconds, nanos } := by
  obtain ⟨hmin, hmax⟩ := h
  have hout : ¬ (seconds < minSeconds ∨ maxSeconds < seconds) := by omega
  have hlarge : ¬ 2000000000 ≤ nanos := by omega
  have hleap : ¬ (1000000000 ≤ nanos ∧ seconds % 60 ≠ 59) := by omega
  rw [ofParts?, if_neg hout, if_neg hlarge, if_neg hleap]

/-- Both ends of the range of timestamps are off the calendar, and so is all beyond them. -/
theorem not_onCalendar_of_total_ne {t : Timestamp} (h : t.normalize.total ≠ t.total) :
    ¬ OnCalendar t.normalize.seconds.toInt ∧ ¬ OnCalendar (t.total / nanosPerSecond) := by
  obtain ⟨hnormal, hclamp⟩ := t.normalize_spec
  rw [hnormal.parts_eq.1, OnCalendar, OnCalendar, hclamp]
  rw [hclamp] at h
  simp only [Timestamp.minTotal, Timestamp.maxTotal, Timestamp.minSeconds, Timestamp.maxSeconds,
    minSeconds, maxSeconds, nanosPerSecond] at h ⊢
  omega

theorem ofTimestamp?_eq (t : Timestamp) :
    ofTimestamp? t = ofParts? (t.total / nanosPerSecond) (t.total % nanosPerSecond).toNat := by
  obtain ⟨hnormal, -⟩ := t.normalize_spec
  obtain ⟨hseconds, hnanos⟩ := hnormal.parts_eq
  show ofParts? t.normalize.seconds.toInt t.normalize.nanos.toInt.toNat = _
  by_cases hkept : t.normalize.total = t.total
  · rw [hseconds, hnanos, hkept]
  · obtain ⟨hend, hbeyond⟩ := not_onCalendar_of_total_ne hkept
    rw [ofParts?_of_not_onCalendar hend, ofParts?_of_not_onCalendar hbeyond]

theorem total_eq_iff {t : Instant} {n : Int} :
    t.total = n ∧ (t.nanos : Int) < nanosPerSecond ↔
      t = { seconds := n / nanosPerSecond, nanos := (n % nanosPerSecond).toNat } := by
  obtain ⟨seconds, nanos⟩ := t
  rw [mk.injEq, total]
  simp only [nanosPerSecond]
  omega

theorem ofTimestamp?_eq_some_iff {t : Timestamp} {i : Instant} :
    ofTimestamp? t = some i ↔
      OnCalendar (t.total / nanosPerSecond) ∧ i.total = t.total ∧
        (i.nanos : Int) < nanosPerSecond := by
  rw [ofTimestamp?_eq, total_eq_iff]
  by_cases hon : OnCalendar (t.total / nanosPerSecond)
  · have hnanos : (t.total % nanosPerSecond).toNat < 1000000000 := by
      simp only [nanosPerSecond]
      omega
    rw [ofParts?_of_onCalendar hon hnanos, Option.some.injEq, eq_comm, and_iff_right hon]
  · rw [ofParts?_of_not_onCalendar hon]
    exact iff_of_false (Option.some_ne_none i).symm fun h => hon h.1

theorem ofTimestamp?_eq_none_iff {t : Timestamp} :
    ofTimestamp? t = none ↔ ¬ OnCalendar (t.total / nanosPerSecond) := by
  constructor
  · intro hnone hon
    have hsome := ofTimestamp?_eq_some_iff.2 ⟨hon, total_eq_iff.2 rfl⟩
    rw [hnone] at hsome
    cases hsome
  · intro hoff
    rw [ofTimestamp?_eq, ofParts?_of_not_onCalendar hoff]

/--
The instant of a timestamp, normalized or not, is the one that lies exactly as many nanoseconds
from the start of 1970, in no leap second; there is none just if that second is not on the
calendar.  Timestamps that stand for the same number give the same.  Normalization keeps the number;
where the seconds end and it cannot, there is no instant.
-/
theorem ofTimestamp?_exact (t : Timestamp) :
    (ofTimestamp? t = none ↔ ¬ OnCalendar (t.total / nanosPerSecond)) ∧
    (∀ i, ofTimestamp? t = some i ↔ OnCalendar (t.total / nanosPerSecond) ∧
      i.total = t.total ∧ (i.nanos : Int) < nanosPerSecond) ∧
    (∀ t' : Timestamp, t'.total = t.total → ofTimestamp? t' = ofTimestamp? t) ∧
    t.normalize.IsNormal ∧
    t.normalize.total = max Timestamp.minTotal (min t.total Timestamp.maxTotal) ∧
    (t.normalize.total ≠ t.total → ofTimestamp? t = none) := by
  obtain ⟨hnormal, hclamp⟩ := t.normalize_spec
  refine ⟨ofTimestamp?_eq_none_iff, fun i => ofTimestamp?_eq_some_iff, fun t' htotal => ?_,
    hnormal, hclamp, fun hlost => ?_⟩
  · rw [ofTimestamp?_eq, ofTimestamp?_eq, htotal]
  · exact ofTimestamp?_eq_none_iff.2 (not_onCalendar_of_total_ne hlost).2

/-- A timestamp far from normal, and the last second that a timestamp can have. -/
example : ofTimestamp? ⟨-1, -2000000001⟩ = some ⟨-4, 999999999⟩ ∧
    ofTimestamp? ⟨0x7FFFFFFFFFFFFFFF, 2000000000⟩ = none := by
  decide

/-! ## 3. From instants to timestamps and back -/

theorem toTimestamp_parts {t : Instant} (hseconds : OnCalendar t.seconds)
    (hnanos : t.nanos < 2000000000) :
    t.toTimestamp.seconds.toInt = t.seconds ∧ t.toTimestamp.nanos.toInt = t.nanos := by
  obtain ⟨hmin, hmax⟩ := hseconds
  simp only [minSeconds, maxSeconds] at hmin hmax
  constructor
  · apply Timestamp.toInt_ofInt_seconds
    · rw [Timestamp.minSeconds]
      omega
    · rw [Timestamp.maxSeconds]
      omega
  · apply Timestamp.toInt_ofInt_nanos
    · rw [nanosPerSecond]
      omega
    · rw [nanosPerSecond]
      omega

/--
A time of creation that is set makes a timestamp for the same number of nanoseconds.  Just if it is
in no leap second, the timestamp is a normal one and the time is read back as it was.  A time in a
leap second is read back as one in the second after, which the calendar need not have.
-/
theorem created?_withCreationTime_iff {seconds : Int} {nanos : Nat} {t : Instant}
    (h : ofParts? seconds nanos = some t) (header : Header) :
    t.toTimestamp.total = t.total ∧
    (t.toTimestamp.IsNormal ↔ nanos < 1000000000) ∧
    (ofTimestamp? t.toTimestamp = some t ↔ nanos < 1000000000) ∧
    ((header.withCreationTime t).created? = some t ↔ nanos < 1000000000) ∧
    (1000000000 ≤ nanos →
      (header.withCreationTime t).created? = ofParts? (seconds + 1) (nanos - 1000000000)) := by
  obtain ⟨rfl, hon, hlt, -⟩ := of_ofParts?_eq_some h
  obtain ⟨hseconds, hnanos⟩ := toTimestamp_parts (t := { seconds, nanos }) hon hlt
  have htotal : (toTimestamp { seconds, nanos }).total = seconds * nanosPerSecond + nanos := by
    rw [Timestamp.total, hseconds, hnanos]
  have hiff : ofTimestamp? (toTimestamp { seconds, nanos }) = some { seconds, nanos } ↔
      nanos < 1000000000 := by
    rw [ofTimestamp?_eq_some_iff, htotal]
    constructor
    · intro hback
      exact Int.ofNat_lt.1 hback.2.2
    · intro hnormal
      have hsecond : (seconds * nanosPerSecond + nanos) / nanosPerSecond = seconds := by
        simp only [nanosPerSecond]
        omega
      rw [hsecond]
      exact ⟨hon, rfl, Int.ofNat_lt.2 hnormal⟩
  have hcreated : (header.withCreationTime { seconds, nanos }).created?
      = ofTimestamp? (toTimestamp { seconds, nanos }) := rfl
  rw [hcreated]
  refine ⟨htotal, ?_, hiff, hiff, fun hleap => ?_⟩
  · rw [Timestamp.IsNormal, hnanos, nanosPerSecond]
    simp only
    omega
  · -- division carries the leap second into the second after
    have hsecond : (seconds * nanosPerSecond + nanos) / nanosPerSecond = seconds + 1 := by
      simp only [nanosPerSecond]
      omega
    have hrest : ((seconds * nanosPerSecond + nanos) % nanosPerSecond).toNat
        = nanos - 1000000000 := by
      simp only [nanosPerSecond]
      omega
    rw [ofTimestamp?_eq, htotal, hsecond, hrest]

/-- The last nanosecond of 1969 is read back; half a leap second later it is the second after. -/
theorem midnight_read_back :
    (Header.withCreationTime { id := "abc" } ⟨-1, 999999999⟩).created? = some ⟨-1, 999999999⟩ ∧
      (Header.withCreationTime { id := "abc" } ⟨-1, 1500000000⟩).created?
        = some ⟨0, 500000000⟩ := by
  have hlast : ofParts? (-1) 999999999 = some ⟨-1, 999999999⟩ := by decide
  have hleap : ofParts? (-1) 1500000000 = some ⟨-1, 1500000000⟩ := by decide
  obtain ⟨-, -, -, hback, -⟩ := created?_withCreationTime_iff hlast { id := "abc" }
  obtain ⟨-, -, -, -, hafter⟩ := created?_withCreationTime_iff hleap { id := "abc" }
  exact ⟨hback.2 (by decide), hafter (by decide)⟩

/--
A time in a leap second is an instant, but makes a timestamp that is not normal and is not read back
as it was; in the last second of the calendar it is not read back at all.
-/
theorem leap_second_not_restored :
    ofParts? 59 1500000000 = some ⟨59, 1500000000⟩ ∧
      ¬ (toTimestamp ⟨59, 1500000000⟩).IsNormal ∧
      ofTimestamp? (toTimestamp ⟨59, 1500000000⟩) = some ⟨60, 500000000⟩ ∧
      (Header.withCreationTime { id := "abc" } ⟨59, 1500000000⟩).created?
        ≠ some ⟨59, 1500000000⟩ ∧
      ofParts? maxSeconds 1000000000 = some ⟨maxSeconds, 1000000000⟩ ∧
      (Header.withCreationTime { id := "abc" } ⟨maxSeconds, 1000000000⟩).created? = none := by
  decide

end Instant
end ScanArchive
