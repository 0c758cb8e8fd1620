import Xv6.Proofs.Umalloc

/-! Requests to `malloc` of any size: the number of bytes is rounded to units, multiplied back and read as an
`int` by `sbrk`. While none of this overflows, the block is large enough. -/

namespace Xv6.Umalloc

open Trace Linked Tiling

variable {base n nu fuel p a r : ℕ} {m m' : Heap} {ok : Pages} {s s' : State}

/-! ### Requests that fit -/

theorem small_units (h : Small n) : UNIT * units n < 2 ^ 31 ∧ n + UNIT ≤ UNIT * units n := by
  have hno : u32 (n + UNIT - 1) = n + UNIT - 1 := by
    unfold Small UNIT at h
    unfold u32 UNIT
    omega
  unfold Small at h
  unfold units
  rw [hno]
  unfold UNIT at *
  omega

/-- The kernel as the allocator sees it. -/
def grant (ok : Pages) : Sbrk := fun top n => if top + n < KERNBASE ∧ ok top n = true then some top else none

theorem grant_fresh : (grant ok).Fresh := by
  intro top n p hp
  obtain ⟨hc, he⟩ := Option.ite_none_right_eq_some.1 hp
  obtain rfl : top = p := Option.some.inj he
  exact ⟨le_rfl, hc.1⟩

theorem toInt_of_lt (h : n < 2 ^ 31) : toInt (u32 n) = n := by
  have hu : u32 n = n := by
    unfold u32
    omega
  rw [hu, toInt, if_pos h]

/-- `sbrk` of a positive number. -/
theorem sbrk_pos {b : Bool} {sz : ℕ} (hsz : sz < KERNBASE) (hpos : 0 < n) (hn : n < 2 ^ 31) :
    sbrk b sz n = if sz + n < KERNBASE ∧ b = true then (some sz, sz + n) else (none, sz) := by
  have hadd : add32 sz n = sz + n := by
    simp only [KERNBASE] at hsz
    unfold add32
    omega
  have hne : ¬ ((n : ℤ) = 0) := by omega
  have hgt : (n : ℤ) > 0 := by omega
  unfold sbrk
  dsimp only
  rw [hadd, if_neg hne, if_pos hgt, if_neg (show ¬ sz + n < sz by omega)]
  by_cases hk : sz + n < KERNBASE
  · rw [if_neg (show ¬ sz + n ≥ KERNBASE by omega)]
    cases b with
    | false => simp
    | true => simp [hk, hpos.ne']
  · rw [if_pos (show sz + n ≥ KERNBASE by omega)]
    simp [hk]

theorem morecoreInt_eq (htop : m.top < KERNBASE) (hnu : UNIT * nu < 2 ^ 31) :
    m.morecoreInt ok fuel nu = m.morecore (grant ok) fuel nu := by
  unfold Heap.morecoreInt Heap.morecore
  obtain ⟨k, hk⟩ : ∃ k, k = if nu < 4096 then 4096 else nu := ⟨_, rfl⟩
  have hbig : 0 < k * UNIT ∧ k * UNIT < 2 ^ 31 := by
    unfold UNIT at *
    split_ifs at hk <;> omega
  rw [← hk]
  dsimp only
  rw [toInt_of_lt hbig.2, sbrk_pos htop hbig.1 hbig.2]
  unfold grant
  split_ifs with hc
  · have hhdr : m.top + UNIT ≤ PGROUNDUP (m.top + k * UNIT) := by
      unfold UNIT PGROUNDUP PGSIZE at *
      omega
    dsimp only
    rw [if_pos hhdr]
  · rfl

/-! ### The size of the process -/

theorem free_top {ap : ℕ} (h : m.free fuel ap = some m') : m'.top = m.top := by
  unfold Heap.free at h
  obtain ⟨q, -, he⟩ := Option.bind_eq_some_iff.1 h
  cases he
  unfold Heap.joinPrev Heap.joinNext
  split_ifs <;> rfl

theorem morecore_top {x : Heap × ℕ} (htop : m.top < KERNBASE) (h : m.morecore (grant ok) fuel nu = some x) :
    m.top ≤ x.1.top ∧ x.1.top < KERNBASE := by
  unfold Heap.morecore at h
  generalize (if nu < 4096 then 4096 else nu) = k at h
  dsimp only at h
  split at h
  · cases h
    exact ⟨le_rfl, htop⟩
  · rename_i hp hg
    obtain ⟨h1, h2⟩ := grant_fresh _ _ _ hg
    obtain ⟨m₁, hfree, he⟩ := Option.bind_eq_some_iff.1 h
    have ht : m₁.top = hp + k * UNIT := free_top hfree
    cases he
    dsimp only
    rw [ht]
    exact ⟨by omega, h2⟩

theorem carve_top : (m.carve n a p).1.top = m.top := by
  unfold Heap.carve
  split_ifs <;> rfl

theorem mallocIntLoop_eq (hn : UNIT * n < 2 ^ 31) (htop : m.top < KERNBASE) :
    mallocIntLoop ok n fuel m a p = mallocLoop (grant ok) n fuel m a p ∧
      ∀ x, mallocLoop (grant ok) n fuel m a p = some x → m.top ≤ x.1.top ∧ x.1.top < KERNBASE := by
  -- a round stays in the free list, or follows a `morecore`
  induction fuel generalizing m a p with
  | zero => exact ⟨rfl, fun x h => by cases h⟩
  | succ fuel ih =>
    unfold mallocIntLoop mallocLoop
    split_ifs with hfit hend
    · refine ⟨rfl, fun x h => ?_⟩
      cases h
      rw [carve_top]
      exact ⟨le_rfl, htop⟩
    · rw [morecoreInt_eq htop hn]
      cases hm : m.morecore (grant ok) fuel n with
      | none => exact ⟨rfl, fun x h => by cases h⟩
      | some y =>
        obtain ⟨m₁, q⟩ := y
        obtain ⟨h1, h2⟩ := morecore_top htop hm
        dsimp only [Option.bind_some, bind, Option.bind]
        split_ifs with hq
        · refine ⟨rfl, fun x h => ?_⟩
          cases h
          exact ⟨h1, h2⟩
        · obtain ⟨heq, hx⟩ := @ih (m₁.ptr q) q m₁ h2
          refine ⟨heq, fun x h => ?_⟩
          obtain ⟨h3, h4⟩ := hx x h
          exact ⟨h1.trans h3, h4⟩
    · exact ih htop

theorem mallocInt_eq (hn : Small n) (htop : m.top < KERNBASE) :
    m.mallocInt base ok fuel n = m.malloc base (grant ok) fuel n ∧
      ∀ x, m.malloc base (grant ok) fuel n = some x → m.top ≤ x.1.top ∧ x.1.top < KERNBASE := by
  unfold Heap.mallocInt Heap.malloc
  split_ifs
  · exact mallocIntLoop_eq (small_units hn).1 htop
  · exact mallocIntLoop_eq (small_units hn).1 htop

/-! ### Runs -/

/-- A run whose requests fit is a run of the allocator over unbounded numbers. -/
theorem run_fits {rs : List Req} (h : Run ((systemInt base).restrict fun _ a => a.fits) rs s) :
    (∃ as, Run (system base) as s) ∧ s.heap.top < KERNBASE := by
  induction h with
  | start h => exact ⟨⟨[], .start h.1⟩, h.2⟩
  | snoc h hs ih =>
    obtain ⟨⟨as, hrun⟩, htop⟩ := ih
    obtain ⟨hfits, hstep⟩ := hs
    cases hstep with
    | malloc hn hm =>
      obtain ⟨heq, hx⟩ := mallocInt_eq hfits htop
      rw [heq] at hm
      exact ⟨⟨_, hrun.snoc (.malloc grant_fresh hfits hm)⟩, (hx _ hm).2⟩
    | free hb hf =>
      refine ⟨⟨_, hrun.snoc (.free hb hf)⟩, ?_⟩
      rw [free_top hf]
      exact htop
    | store hw => exact ⟨⟨_, hrun.snoc (.store hw)⟩, htop⟩

/-- What the caller of `malloc` gets for `n` bytes: no block, or one of at least `n` bytes that lies below the break and
shares no byte with another. -/
def Serves (s : State) (n : ℕ) (m : Heap) (r : ℕ) : Prop :=
  r = 0 ∨ (UNIT ≤ r ∧ r + n ≤ r - UNIT + UNIT * m.size (r - UNIT) ∧ r - UNIT + UNIT * m.size (r - UNIT) ≤ m.top ∧
    ∀ b ∈ s.live, Apart UNIT (r - UNIT, m.size (r - UNIT)) b)

/-- In every run whose requests do not overflow, `malloc` returns a block that is large enough or none, and the process
does not shrink. -/
theorem malloc_large_enough {rs : List Req} (h : Run ((systemInt base).restrict fun _ a => a.fits) rs s) (ok : Pages)
    (hn : Small n) : ∃ fuel m r, s.heap.mallocInt base ok fuel n = some (m, r) ∧ Serves s n m r ∧ s.heap.top ≤ m.top := by
  obtain ⟨⟨as, hrun⟩, htop⟩ := run_fits h
  obtain ⟨m, xs, hok, he⟩ := (Run.good hrun).start
  obtain ⟨fuel, m', r, xs', hr, hres⟩ := hok.malloc_ends (@grant_fresh ok) (units_pos n)
  have hm := (he (grant ok) fuel n).trans hr
  obtain ⟨heq, hx⟩ := @mallocInt_eq base n fuel s.heap ok hn htop
  refine ⟨fuel, m', r, heq.trans hm, ?_, (hx _ hm).1⟩
  rcases hres with ⟨rfl, -⟩ | ⟨q, rfl, hsize, hok'⟩
  · exact .inl rfl
  · have hlarge := (small_units hn).2
    have hmem : (q, units n) ∈ m'.blocks xs' ++ (q, units n) :: s.live := by simp
    have hend := hok'.tiles.le_hi _ hmem
    have hapart := (List.pairwise_append.1 hok'.tiles.apart).2.1
    refine .inr ⟨Nat.le_add_left _ _, ?_, ?_, ?_⟩
    · rw [Nat.add_sub_cancel, hsize]
      omega
    · rw [Nat.add_sub_cancel, hsize]
      exact hend
    · rw [Nat.add_sub_cancel, hsize]
      exact (List.pairwise_cons.1 hapart).1

/-- A program with `base` at 4096 and its break at 16384. -/
def freshState : State := ⟨⟨fun _ => 0, fun _ => 0, 0, 16384, []⟩, []⟩

theorem freshState_run (G : State → Req → Prop) : Run ((systemInt 4096).restrict G) [] freshState :=
  .start ⟨⟨rfl, rfl, rfl, by decide, by decide⟩, by decide⟩

/-- Its first request. -/
theorem malloc_large_enough_fresh : Small 100 ∧ ∃ fuel m r,
    freshState.heap.mallocInt 4096 (fun _ _ => true) fuel 100 = some (m, r) ∧ Serves freshState 100 m r ∧
      freshState.heap.top ≤ m.top := by
  have hsmall : Small 100 := by
    unfold Small
    decide
  exact ⟨hsmall, malloc_large_enough (freshState_run _) _ hsmall⟩

/-- A request of all the bytes there are gets a block without any. -/
theorem malloc_wraps : ∃ m r, freshState.heap.mallocInt 4096 (fun _ _ => true) 5 (2 ^ 32 - 1) = some (m, r) ∧
    ¬ Serves freshState (2 ^ 32 - 1) m r := by
  have hr : (freshState.heap.mallocInt 4096 (fun _ _ => true) 5 (2 ^ 32 - 1)).map
      (fun x => (x.2, x.1.size (x.2 - UNIT))) = some (49152, 1) := by
    decide +kernel
  obtain ⟨⟨m, r⟩, hm, hmr⟩ := Option.map_eq_some_iff.1 hr
  obtain ⟨rfl, hsize⟩ : r = 49152 ∧ m.size (r - UNIT) = 1 := by simpa using hmr
  refine ⟨m, 49152, hm, fun hserves => ?_⟩
  rcases hserves with h0 | ⟨-, hlarge, -⟩
  · cases h0
  · rw [hsize] at hlarge
    unfold UNIT at hlarge
    omega

end Xv6.Umalloc
