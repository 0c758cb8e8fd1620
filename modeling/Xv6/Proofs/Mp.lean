import Xv6.Spec.Mp
import Mathlib.Logic.Function.Iterate
import Mathlib.Tactic.SplitIfs

/-! The scan of the configuration table. Each known entry moves `p` on, so the scan ends unless it comes to an entry of
unknown type, and there it stays. -/

namespace Xv6

variable {m : Memory} {e p₀ q fuel : ℕ} {s t : MpScan}

/-- The entries the scan comes to: one after the other from `p₀`, below `e`, past those of known type. -/
inductive MpReached (m : Memory) (e p₀ : ℕ) : ℕ → Prop where
  | first : p₀ < e → MpReached m e p₀ p₀
  | next {q : ℕ} {t : MpEntry} : MpReached m e p₀ q → entryType (m q) = some t → q + t.size < e → MpReached m e p₀ (q + t.size)

theorem MpReached.lt (h : MpReached m e p₀ q) : q < e := by
  cases h <;> assumption

theorem MpEntry.size_pos (t : MpEntry) : 0 < t.size := by
  cases t <;> decide

theorem MpScan.round_known {k : MpEntry} (h : entryType (m s.p) = some k) : (s.round m).p = s.p + k.size := by
  cases k <;> simp only [MpScan.round, h]

theorem MpScan.round_unknown (h : entryType (m s.p) = none) :
    s.round m = { s with starts := s.p :: s.starts, ismp := false } := by
  simp only [MpScan.round, h]

@[simp] theorem MpScan.round_starts : (s.round m).starts = s.p :: s.starts := by
  unfold MpScan.round
  dsimp only
  split <;> rfl

theorem MpScan.round_cpus (h : s.cpus.length ≤ NCPU) : (s.round m).cpus.length ≤ NCPU := by
  unfold MpScan.round
  dsimp only
  split
  · -- the only entry that records a processor
    dsimp only
    split_ifs with hroom
    · rw [List.length_append]
      exact hroom
    · exact h
  · exact h
  · exact h
  · exact h

theorem MpScan.round_ismp : (s.round m).ismp = false ↔ s.ismp = false ∨ entryType (m s.p) = none := by
  unfold MpScan.round
  dsimp only
  split <;> simp_all

/-- What holds at the head of the loop. -/
structure MpScan.Inv (m : Memory) (e p₀ : ℕ) (s : MpScan) : Prop where
  starts : ∀ q ∈ s.starts, MpReached m e p₀ q
  here : s.p < e → MpReached m e p₀ s.p
  cpus : s.cpus.length ≤ NCPU
  ismp : s.ismp = false ↔ ∃ q ∈ s.starts, entryType (m q) = none

theorem MpScan.Inv.first : MpScan.Inv m e p₀ { p := p₀ } :=
  ⟨by simp, .first, Nat.zero_le _, by simp⟩

theorem MpScan.Inv.round (h : MpScan.Inv m e p₀ s) (hlt : s.p < e) : MpScan.Inv m e p₀ (s.round m) := by
  constructor
  · intro q hq
    rw [MpScan.round_starts, List.mem_cons] at hq
    cases hq with
    | inl hq =>
      rw [hq]
      exact h.here hlt
    | inr hq => exact h.starts q hq
  · intro hnext
    cases hk : entryType (m s.p) with
    | none =>
      rw [MpScan.round_unknown hk]
      exact h.here hlt
    | some k =>
      rw [MpScan.round_known hk] at hnext ⊢
      exact (h.here hlt).next hk hnext
  · exact MpScan.round_cpus h.cpus
  · rw [MpScan.round_ismp, MpScan.round_starts, h.ismp, or_comm]
    simp only [List.mem_cons, exists_eq_or_imp]

theorem scan_inv (h : MpScan.Inv m e p₀ s) (hscan : mpScan m e fuel s = some t) : MpScan.Inv m e p₀ t := by
  induction fuel generalizing s with
  | zero => exact absurd hscan (by simp [mpScan])
  | succ fuel ih =>
    rw [mpScan] at hscan
    split_ifs at hscan with hlt
    · exact ih (h.round hlt) hscan
    · rw [← Option.some.inj hscan]
      exact h

/-- With known entries only, each round comes closer to the end. -/
theorem scan_ends (hknown : ∀ q, MpReached m e p₀ q → entryType (m q) ≠ none) (h : MpScan.Inv m e p₀ s)
    (hfuel : e - s.p < fuel) : ∃ t, mpScan m e fuel s = some t := by
  induction fuel generalizing s with
  | zero => omega
  | succ fuel ih =>
    rw [mpScan]
    split_ifs with hlt
    · obtain ⟨k, hk⟩ := Option.ne_none_iff_exists'.1 (hknown _ (h.here hlt))
      apply ih (h.round hlt)
      rw [MpScan.round_known hk]
      have := k.size_pos
      omega
    · exact ⟨s, rfl⟩

theorem scan_stays (hlt : s.p < e) (h : entryType (m s.p) = none) : mpScan m e fuel s = none := by
  induction fuel generalizing s with
  | zero => rfl
  | succ fuel ih =>
    rw [mpScan, if_pos hlt, MpScan.round_unknown h]
    exact ih hlt h

/-- A scan that comes to a place it never leaves never ends. -/
theorem scan_never (hq : MpReached m e p₀ q) (hstay : ∀ fuel s, s.p = q → mpScan m e fuel s = none) (h : s.p = p₀) :
    mpScan m e fuel s = none := by
  induction hq with
  | first => exact hstay fuel s h
  | @next q k hreach hk _ ih =>
    apply ih
    intro fuel s hs
    cases fuel with
    | zero => rfl
    | succ fuel =>
      rw [mpScan, if_pos (hs ▸ hreach.lt)]
      exact hstay _ _ (by rw [MpScan.round_known (hs ▸ hk), hs])

/-- The scan of the table at `conf` ends, has looked at entries that start below the table's end only, has recorded no more
processors than there is room for, and if an entry was of unknown type `mpinit` says so. -/
def MpScanOk (m : Memory) (conf : ℕ) : Prop :=
  ∃ fuel s, mpScan m (conf + confLength m conf) fuel { p := conf + MPCONFSIZE } = some s ∧
    (∀ q ∈ s.starts, q < conf + confLength m conf) ∧ s.cpus.length ≤ NCPU ∧
    ((∃ q ∈ s.starts, entryType (m q) = none) → mpinit m fuel = some (.panic "Didn't find a suitable machine"))

/-- For every table that `mpconfig` accepts. -/
theorem mp_scan_ok_iff {m : Memory} {mp conf : ℕ} (h : mpconfig m = some (mp, conf)) :
    MpScanOk m conf ↔ ∀ q, MpReached m (conf + confLength m conf) (conf + MPCONFSIZE) q → entryType (m q) ≠ none := by
  constructor
  · rintro ⟨fuel, s, hs, -⟩ q hq hnone
    have hnever : mpScan m (conf + confLength m conf) fuel { p := conf + MPCONFSIZE } = none := by
      apply scan_never hq _ rfl
      intro fuel s hp
      exact scan_stays (hp ▸ hq.lt) (hp ▸ hnone)
    rw [hnever] at hs
    exact absurd hs (by simp)
  · intro hknown
    obtain ⟨s, hs⟩ := scan_ends hknown MpScan.Inv.first (Nat.lt_succ_self _)
    have hinv := scan_inv MpScan.Inv.first hs
    refine ⟨_, s, hs, fun q hq => (hinv.starts q hq).lt, hinv.cpus, fun hbad => ?_⟩
    simp only [mpinit, h, hs, hinv.ismp.2 hbad, if_true]

/-- A machine whose floating pointer structure is at `0x600` and whose table, at `0x700`, has this checksum and these
entries. -/
def firmware (checksum : UInt8) (entries : List UInt8) : Memory := fun a =>
  if a = 0x40E then 0x60
  else if 0x600 ≤ a ∧ a < 0x610 then
    (mpChars "_MP_" ++ [0x00, 0x07, 0, 0, 1, 4, 153]).getD (a - 0x600) 0
  else if 0x700 ≤ a then
    (mpChars "PCMP" ++ [UInt8.ofNat (44 + entries.length), 0, 4, checksum] ++ List.replicate 36 0 ++ entries).getD (a - 0x700) 0
  else 0

def oneBus : Memory := firmware 151 [1, 0, 0, 0, 0, 0, 0, 0]

def oneUnknown : Memory := firmware 147 [5, 0, 0, 0, 0, 0, 0, 0]

theorem reached_bus (h : MpReached oneBus (0x700 + 52) (0x700 + MPCONFSIZE) q) : q = 0x700 + MPCONFSIZE := by
  induction h with
  | first => rfl
  | next _ hk hlt ih =>
    subst ih
    rw [show entryType (oneBus (0x700 + MPCONFSIZE)) = some .bus by decide] at hk
    cases hk
    exact absurd hlt (by decide)

/-- A table with one bus. -/
theorem mp_scan_ok_iff_bus : MpScanOk oneBus 0x700 :=
  (@mp_scan_ok_iff oneBus 0x600 0x700 (by decide +kernel)).2 fun q hq => by
    rw [reached_bus hq]
    decide

/-- An accepted table with one entry of type 5: `mpinit` never returns. -/
theorem mpinit_loops : mpconfig oneUnknown = some (0x600, 0x700) ∧
    ∀ fuel, mpinit oneUnknown fuel = none := by
  have hconf : mpconfig oneUnknown = some (0x600, 0x700) := by decide +kernel
  refine ⟨hconf, fun fuel => ?_⟩
  have hstays : mpScan oneUnknown (0x700 + 52) fuel { p := 0x700 + MPCONFSIZE } = none :=
    scan_stays (by decide) (by decide)
  simp only [mpinit, hconf]
  rw [show confLength oneUnknown 0x700 = 52 by decide, hstays]

end Xv6
