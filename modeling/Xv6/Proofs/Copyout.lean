import Xv6.Proofs.Places
import Xv6.Proofs.VmTrace

/-! `copyout`, byte by byte: the bytes go to the places that the page table gives for the addresses, up
to the first page that user code cannot use. -/

namespace Xv6

open Prog Bytes List Nat

variable {s : Kern} {d va a i m n c f o : ℕ} {buf : List UInt8}

/-! ### The loop -/

section Loop

variable {F : Kern → Prop} {N : String → Kern → Prop} {Q : Bool → Kern → Prop}

theorem sat_uva2ka {Q : Option ℕ → Kern → Prop} (hva : va < 2 ^ 32) (hF : s.ptab d (PDX va) = 0 → F s)
    (hQ : s.ptab d (PDX va) ≠ 0 → Q (if s.usable d va then some (s.place d va).1 else none) s) :
    Sat (uva2ka d (PGROUNDDOWN va)) s Q F N := by
  unfold uva2ka walkpgdir
  simp only [sat_bind_eq, sat_get_eq, PDX_PGROUNDDOWN, PGROUNDDOWN_div]
  by_cases h0 : s.ptab d (PDX va) = 0
  · rw [if_neg (not_not.2 h0), if_pos trivial, sat_pure_eq]
    exact hF h0
  · have hent : s.entry d (va / PGSIZE) = s.pte d (va / PGSIZE) := by
      rw [Kern.entry, ← PDX_eq hva, if_neg h0]
    have hq := hQ h0
    unfold Kern.usable Kern.place at hq
    rw [hent] at hq
    rw [if_pos h0, sat_pure_eq]
    simp only [loadPte, sat_bind_eq, sat_get_eq, sat_pure_eq]
    simpa only [Bool.and_eq_true] using hq

theorem copyoutLoop_nil : copyoutLoop d n va [] = Pure.pure true := by
  cases n <;> rfl

/-- `copyout` stops at the first page that user code cannot use. -/
theorem sat_copyoutLoop : ∀ (n va : ℕ) (buf : List UInt8) (s : Kern), buf.length ≤ n → va + buf.length ≤ 2 ^ 32 →
    (s.reach d va buf.length = buf.length → Q true (s.copied d va buf)) →
    (∀ c, s.reach d va buf.length = c → c < buf.length → s.ptab d (PDX (va + c)) ≠ 0 →
      Q false (s.copied d va (buf.take c))) →
    (∀ c, s.reach d va buf.length = c → c < buf.length → s.ptab d (PDX (va + c)) = 0 →
      F (s.copied d va (buf.take c))) →
    Sat (copyoutLoop d n va buf) s Q F N := by
  intro n
  induction n with
  | zero =>
    intro va buf s hn _ hok _ _
    obtain rfl : buf = [] := eq_nil_of_length_eq_zero (by omega)
    exact hok rfl
  | succ n ih =>
    intro va buf s hn hva hok hbad hF
    cases buf with
    | nil => exact hok rfl
    | cons b bs =>
      have hlt : va < 2 ^ 32 := by
        rw [length_cons] at hva
        omega
      unfold copyoutLoop
      rw [sat_bind_eq]
      -- a page that user code cannot use
      have hstop : s.usable d va = false → s.reach d va (b :: bs).length = 0 := by
        intro hu
        rw [length_cons, Kern.reach, hu]
        rfl
      refine sat_uva2ka hlt (fun h0 => ?_) fun h0 => ?_
      · have hu : s.usable d va = false := by
          unfold Kern.usable
          rw [entry_of_no_tab (by rw [← PDX_eq hlt]; exact h0)]
          rfl
        exact hF 0 (hstop hu) (zero_lt_succ _) h0
      · cases hu : s.usable d va with
        | false => exact hbad 0 (hstop hu) (zero_lt_succ _) h0
        | true =>
          have hoff : va % PGSIZE < PGSIZE := mod_lt _ (by decide)
          generalize hbuf : b :: bs = buf at *
          have hpos : 0 < buf.length := by
            rw [← hbuf]
            exact zero_lt_succ _
          obtain ⟨m, hm⟩ : ∃ m, m = min (PGSIZE - (va - PGROUNDDOWN va)) buf.length := ⟨_, rfl⟩
          have hm' : m = min (PGSIZE - va % PGSIZE) buf.length := by rw [hm, sub_PGROUNDDOWN]
          have htake : (buf.take m).length = m := by
            rw [length_take]
            omega
          have hdrop : (buf.drop m).length = buf.length - m := length_drop
          have hstate : ∀ f, f = (s.entry d (va / PGSIZE)).ppn →
              { s with mem := Function.update s.mem f (overlay (s.mem f) (va % PGSIZE) (buf.take m)) } =
                s.copied d va (buf.take m) := by
            rintro f rfl
            exact copied_page (by omega)
          -- the whole page can be used
          have huse : ∀ i < m, s.usable d (va + i) = true := by
            intro i hi
            unfold Kern.usable
            rw [(@same_page va i (by omega)).1]
            exact hu
          have hreach : s.reach d va buf.length = m + s.reach d (va + m) (buf.drop m).length := by
            rw [hdrop, ← reach_add huse]
            congr 1
            omega
          rw [if_pos rfl]
          dsimp only
          rw [← hm, sub_PGROUNDDOWN, sat_bind_eq, memwrite, sat_modify_eq]
          rw [hstate (s.place d va).1 rfl]
          have hmore : ∀ c, (s.copied d va (buf.take m)).copied d (va + m) ((buf.drop m).take c) =
              s.copied d va (buf.take (m + c)) := by
            intro c
            rw [take_add, copied_append, htake]
          by_cases hlast : m = buf.length
          · -- no bytes are left
            have hnil : buf.drop m = [] := drop_of_length_le hlast.ge
            have hall : buf.take m = buf := take_of_length_le hlast.ge
            rw [hnil, length_nil] at hreach
            rw [hnil, hall, copyoutLoop_nil]
            exact hok (by rw [hreach]; exact hlast)
          · have hnext : u32 (PGROUNDDOWN va + PGSIZE) = va + m := by
              have hround := @next_round va buf.length (by omega)
              rw [← hm] at hround
              rw [hround]
              exact mod_eq_of_lt (by omega)
            rw [hnext]
            refine ih _ _ _ (by omega) (by omega) (fun hr => ?_) (fun c hr hc h1 => ?_) (fun c hr hc h1 => ?_)
            · rw [copied_reach] at hr
              have hend := hmore (buf.drop m).length
              rw [take_length, hdrop, Nat.add_sub_cancel' (by omega), take_length] at hend
              rw [hend]
              exact hok (by omega)
            · rw [copied_reach] at hr
              rw [hmore]
              exact hbad (m + c) (by omega) (by omega) (by rw [← add_assoc]; exact h1)
            · rw [copied_reach] at hr
              rw [hmore]
              exact hF (m + c) (by omega) (by omega) (by rw [← add_assoc]; exact h1)

theorem sat_copyout (hva : va + buf.length ≤ 2 ^ 32)
    (hok : s.reach d va buf.length = buf.length → Q true (s.copied d va buf))
    (hbad : ∀ c, s.reach d va buf.length = c → c < buf.length → s.ptab d (PDX (va + c)) ≠ 0 →
      Q false (s.copied d va (buf.take c)))
    (hF : ∀ c, s.reach d va buf.length = c → c < buf.length → s.ptab d (PDX (va + c)) = 0 →
      F (s.copied d va (buf.take c))) : Sat (copyout d va buf) s Q F N :=
  sat_copyoutLoop _ _ _ _ le_rfl hva hok hbad hF

/-- `copyout` to a page that user code cannot use. -/
theorem sat_copyout_refused (hva : va < 2 ^ 32) (hpos : buf ≠ []) (hu : s.usable d va = false)
    (hbad : s.ptab d (PDX va) ≠ 0 → Q false s) (hF : s.ptab d (PDX va) = 0 → F s) : Sat (copyout d va buf) s Q F N := by
  obtain ⟨b, bs, rfl⟩ := exists_cons_of_ne_nil hpos
  unfold copyout
  rw [length_cons]
  unfold copyoutLoop
  rw [sat_bind_eq]
  refine sat_uva2ka hva hF fun h0 => ?_
  rw [hu]
  exact hbad h0

end Loop

/-! ### What `copyout` promises -/

/-- Every page of the range is present and user code can use it. -/
def Kern.allUsable (s : Kern) (d va n : ℕ) : Prop := ∀ i < n, s.usable d (va + i) = true

/-- `copyout` returns; it returns 0 exactly if all pages can be used, and then the bytes are there. Nothing but bytes
of the range changes. -/
structure CopiesOut (s : Kern) (d va : ℕ) (buf : List UInt8) (r : Bool) (s' : Kern) : Prop where
  ret : r = true ↔ s.allUsable d va buf.length
  data : r = true → ∀ i < buf.length, buf[i]? = some (s'.mem (s.place d (va + i)).1 (s.place d (va + i)).2)
  out : ∀ f o, (∀ i < buf.length, s.usable d (va + i) = true → s.place d (va + i) ≠ (f, o)) → s'.mem f o = s.mem f o
  same : s' = { s with mem := s'.mem }

/-- Before the first page that cannot be used there is no gap without a page table, and addresses with one place get
equal bytes. -/
def Kern.CanCopy (s : Kern) (d va : ℕ) (buf : List UInt8) : Prop :=
  (∀ c < buf.length, s.allUsable d va c → s.ptab d (PDX (va + c)) ≠ 0) ∧
    (s.allUsable d va buf.length → Through.Agrees (s.place d) va buf)

/-- `copyout` is exact or refuses, unless it meets a region without a page table first, or bytes that differ go to one
place. -/
theorem copyout_exact_iff (s : Kern) (d va : ℕ) (buf : List UInt8) (hva : va + buf.length ≤ 2 ^ 32) :
    (∃ r s', copyout d va buf s = .ok r s' ∧ CopiesOut s d va buf r s') ↔ s.CanCopy d va buf := by
  constructor
  · rintro ⟨r, s', hrun, h⟩
    refine ⟨fun c hc hall h0 => ?_, fun hall => ?_⟩
    · -- the copy gets to the gap
      have hu : s.usable d (va + c) = false := by
        unfold Kern.usable
        rw [entry_of_no_tab (by rw [← PDX_eq (by omega)]; exact h0)]
        rfl
      have hreach : s.reach d va buf.length = c := by
        have hn : buf.length = c + (buf.length - c - 1 + 1) := by omega
        rw [hn, reach_add hall, Kern.reach, hu]
        rfl
      have hsat : Sat (copyout d va buf) s (fun _ _ => False) (fun _ => True) (fun _ _ => False) := by
        refine sat_copyout hva (fun hr => ?_) (fun c' hr _ h1 => ?_) (fun _ _ _ _ => trivial)
        · omega
        · rw [← hr, hreach] at h1
          exact h1 h0
      unfold Sat at hsat
      rw [hrun] at hsat
      exact hsat
    · exact @Through.agrees_of_read _ _ _ (fun q => s'.mem q.1 q.2) _ _ (h.data (h.ret.2 hall))
  · rintro ⟨hgap, hagree⟩
    have hsat : Sat (copyout d va buf) s (fun r s' => CopiesOut s d va buf r s') (fun _ => False) (fun _ _ => False) := by
      refine sat_copyout hva (fun hr => ?_) (fun c hr hc _ => ?_) (fun c hr hc h0 => ?_)
      · have hall := reach_eq_iff.1 hr
        refine ⟨⟨fun _ => hall, fun _ => rfl⟩, fun _ i hi => Through.write_in (hagree hall) hi, fun f o hout => ?_, rfl⟩
        exact Through.write_out fun i hi => hout i hi (hall i hi)
      · have hno : ¬ s.allUsable d va buf.length := by
          intro hall
          have := reach_eq_iff.2 hall
          omega
        refine ⟨⟨fun h => absurd h Bool.false_ne_true, fun h => absurd h hno⟩, fun h => absurd h Bool.false_ne_true,
          fun f o hout => ?_, rfl⟩
        refine Through.write_out fun i hi => ?_
        rw [length_take] at hi
        have hreach : i < s.reach d va buf.length := by omega
        exact hout i (by omega) (usable_of_reach hreach)
      · exact hgap c hc (fun i hi => usable_of_reach (hr.symm ▸ hi)) h0
    unfold Sat at hsat
    split at hsat
    · exact ⟨_, _, ‹_›, hsat⟩
    · exact hsat.elim
    · exact hsat.elim

/-- A page table with one user page, the last of its 4 MB. -/
def edgeKern : Kern :=
  { freelist := [], refCount := fun _ => 0, mem := fun _ _ => 0, dir := fun d => d = 5
    ptab := fun d k => if d = 5 ∧ k = 0 then 6 else 0
    pte := fun d v => if d = 5 ∧ v = 1023 then { p := true, w := true, u := true, ppn := 7 } else {}
    proc := fun _ => {}, nextpid := 1, vdsoText := 0, vdsoTicks := 0, pipes := [], cpustacks := [], fails := []
    misses := 0 }

/-- The last byte of the page. -/
theorem copyout_exact_iff_edge : 0x3fffff + [(1 : UInt8)].length ≤ 2 ^ 32 ∧ edgeKern.CanCopy 5 0x3fffff [1] ∧
    ∃ r s', copyout 5 0x3fffff [1] edgeKern = .ok r s' ∧ CopiesOut edgeKern 5 0x3fffff [1] r s' := by
  have hcan : edgeKern.CanCopy 5 0x3fffff [1] := by
    refine ⟨fun c hc _ => ?_, fun _ i j hi hj _ => ?_⟩
    · obtain rfl : c = 0 := lt_one_iff.1 hc
      decide
    · rw [lt_one_iff.1 hi, lt_one_iff.1 hj]
  exact ⟨by decide, hcan, (copyout_exact_iff edgeKern 5 0x3fffff [1] (by decide)).2 hcan⟩

/-- The byte after it is in a region without a page table. -/
theorem copyout_faults_at_gap : 0x3fffff + [(1 : UInt8), 2].length ≤ 2 ^ 32 ∧
    ∃ s', copyout 5 0x3fffff [1, 2] edgeKern = .fault s' :=
  ⟨by decide, _, rfl⟩

end Xv6
