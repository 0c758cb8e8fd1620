import Xv6.Spec.Vm

/-! How the updates of the kernel state act on the page-table entries. -/

namespace Xv6

open Prog Function

/-- `E` with the entry for page `v` in directory `d` replaced. -/
def upd (E : ℕ → ℕ → Pte) (d v : ℕ) (e : Pte) : ℕ → ℕ → Pte :=
  update E d (update (E d) v e)

variable {s : Kern} {d v d' v' k r : ℕ} {e : Pte} {E : ℕ → ℕ → Pte}

@[simp] theorem upd_same : upd E d v e d v = e := by simp [upd]

theorem upd_ne (h : ¬ (d' = d ∧ v' = v)) : upd E d v e d' v' = E d' v' := by
  unfold upd
  rcases eq_or_ne d' d with rfl | hd
  · rw [update_self, update_of_ne (fun hv => h ⟨rfl, hv⟩)]
  · rw [update_of_ne hd]

theorem upd_upd {e' : Pte} : upd (upd E d v e) d v e' = upd E d v e' := by simp [upd]

theorem upd_ne_dir (h : d' ≠ d) : upd E d v e d' v' = E d' v' := upd_ne fun h' => h h'.1

theorem upd_ne_page (h : v' ≠ v) : upd E d v e d' v' = E d' v' := upd_ne fun h' => h h'.2

theorem entry_of_tab (h : s.ptab d (v / NPTENTRIES) ≠ 0) : s.entry d v = s.pte d v := if_neg h

theorem entry_of_no_tab (h : s.ptab d (v / NPTENTRIES) = 0) : s.entry d v = {} := if_pos h

theorem entry_setPte (h : s.ptab d (v / NPTENTRIES) ≠ 0) : (s.setPte d v e).entry = upd s.entry d v e := by
  funext d' v'
  by_cases hq : d' = d ∧ v' = v
  · obtain ⟨rfl, rfl⟩ := hq
    rw [upd_same]
    simp [Kern.entry, Kern.setPte, h]
  · rw [upd_ne hq]
    have hp : (s.setPte d v e).pte d' v' = s.pte d' v' := upd_ne (E := s.pte) hq
    unfold Kern.entry
    rw [hp]
    rfl

/-- A new page-table page holds the zero entries that an absent one counts as. -/
theorem entry_newTab (h : s.ptab d k = 0) : (s.newTab d k r).entry = s.entry := by
  funext d' v'
  unfold Kern.entry Kern.newTab
  rcases eq_or_ne d' d with rfl | hd
  · rcases eq_or_ne (v' / NPTENTRIES) k with rfl | hk
    · simp [h]
    · simp [hk]
  · simp [hd]

theorem entry_newDir (h : ∀ k, s.ptab r k = 0) : (s.newDir r).entry = s.entry := by
  funext d' v'
  unfold Kern.entry Kern.newDir
  rcases eq_or_ne d' r with rfl | hd
  · simp [h]
  · simp [hd]

/-- Without the `k`-th page-table page of `d`. -/
def Kern.dropTab (s : Kern) (d k : ℕ) : Kern :=
  { s with ptab := update s.ptab d (update (s.ptab d) k 0) }

theorem entry_dropTab :
    (s.dropTab d k).entry d' v' = if d' = d ∧ v' / NPTENTRIES = k then {} else s.entry d' v' := by
  unfold Kern.entry Kern.dropTab
  rcases eq_or_ne d' d with rfl | hd
  · rcases eq_or_ne (v' / NPTENTRIES) k with rfl | hk
    · simp
    · simp [hk]
  · simp [hd]

end Xv6
