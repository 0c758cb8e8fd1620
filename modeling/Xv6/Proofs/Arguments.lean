import Xv6.Spec.Syscall
import Mathlib.Tactic.Common

/-! Which user memory the argument checks of `syscall.c` let the kernel touch. The tests on the
stack and shm areas look at the start of an argument, and no test looks at the null page, so an
argument that starts in the null page or runs over the start of the stack area gets through. -/

namespace Xv6

open Bytes

/-- The user memory the kernel may touch: below `sz`, and not the null page, not the reserved
stack area or the guard page, not shared memory that is not allocated. -/
structure Proc.Touchable (p : Proc) (va : ℕ) : Prop where
  lt_sz : va < p.sz
  not_null : PGSIZE ≤ va
  not_stack : ¬ (p.stacklastpg ≤ va ∧ va < p.guardpg + PGSIZE)
  not_shm : ¬ (p.shmbreak ≤ va ∧ va < p.shmtop)

/-- A block of `n` bytes that starts in the null page, or runs into the stack area. -/
def Proc.Gap (p : Proc) (a n : ℕ) : Prop := a < PGSIZE ∨ (a < p.stacklastpg ∧ p.stacklastpg < a + n)

variable {p : Proc} {mem : ℕ → UInt8} {a n len : ℕ}

/-- Pages of slack that the layout leaves around the stack area. -/
theorem Proc.Layout.room (h : p.Layout) :
    p.stacklastpg + PGSIZE ≤ p.stacktop ∧ p.guardpg + PGSIZE ≤ p.stacktop := by
  obtain ⟨k, hk⟩ := h.guardpg_dvd
  obtain ⟨m, hm⟩ := h.stacktop_dvd
  have hs := h.stack
  have hg := h.guard
  simp only [PGSIZE] at *
  omega

theorem u32_of_lt (h : a < 2 ^ 32) : u32 a = a := Nat.mod_eq_of_lt h

theorem add32_of_lt {k : ℤ} (hk : 0 ≤ k) (h : a + k.toNat < 2 ^ 32) : add32 a k = a + k.toNat := by
  unfold add32
  omega

/-- The checks of `fetchint` and `argptr` for a block of `n` bytes at `a`. -/
theorem block_checked (h : p.Layout) (ha : ¬ (a ≥ p.sz ∨ a + n > p.sz ∨ a = 0))
    (hc : ¬ (inStack p a ∨ inShm p a (a + n))) (hg : ¬ p.Gap a n) :
    ∀ k < n, p.Touchable (a + k) := by
  intro k hk
  have hroom := h.room
  have htop := h.top
  have := h.shm
  have := h.heap
  have := h.brk
  have := h.next
  simp only [Proc.Gap, inStack, inShm, u32, PGSIZE, KERNBASE] at *
  exact ⟨by omega, by simp only [PGSIZE]; omega, by simp only [PGSIZE]; omega, by omega⟩

/-- A block in a gap passes those checks and is not all touchable. -/
theorem block_gap (h : p.Layout) (hn : 0 < n) (ha : a ≠ 0) (hb : a + n < p.shmbreak)
    (hg : p.Gap a n) :
    ¬ (a ≥ p.sz ∨ a + n > p.sz ∨ a = 0) ∧ ¬ (inStack p a ∨ inShm p a (a + n)) ∧
      ∃ k < n, ¬ p.Touchable (a + k) := by
  have hroom := h.room
  have hc := h.code
  have := h.stack
  have := h.heap
  have := h.brk
  have := h.next
  refine ⟨by omega, ?_, ?_⟩
  · simp only [Proc.Gap, inStack, inShm, PGSIZE] at *
    omega
  · rcases hg with hg | ⟨hg, hg'⟩
    · exact ⟨0, hn, fun ht => absurd ht.not_null (by omega)⟩
    · refine ⟨p.stacklastpg - a, by omega, fun ht => ht.not_stack ?_⟩
      simp only [PGSIZE] at *
      omega

/-- `fetchint` lets the kernel read four bytes it may touch, unless they are in a gap. -/
theorem fetchint_sound_iff (h : p.Layout) :
    (∀ v, fetchint false p mem a = some v → ∀ k < 4, p.Touchable (a + k)) ↔
      ¬ (a ≠ 0 ∧ p.Gap a 4) := by
  have htop := h.top
  have hroom := h.room
  have hshm := h.shm
  have hcode := h.code
  constructor
  · rintro hs ⟨ha, hg⟩
    have hb : a + 4 < p.shmbreak := by
      simp only [Proc.Gap, PGSIZE] at *
      omega
    obtain ⟨h1, h2, k, hk, hbad⟩ := block_gap h (by omega) ha hb hg
    refine hbad (hs (unle ((List.range 4).map fun k => mem (a + k))) ?_ k hk)
    rw [fetchint, u32_of_lt (by simp only [KERNBASE] at htop; omega), if_neg h1, if_neg (by simp [h2])]
  · intro hg v hv
    unfold fetchint at hv
    split_ifs at hv with h1 h2
    have hlt : u32 (a + 4) = a + 4 := u32_of_lt (by simp only [KERNBASE] at htop; omega)
    rw [hlt] at h1 h2
    exact block_checked h h1 (by simpa using h2) (fun hgap => hg ⟨by omega, hgap⟩)

/-- `argptr` hands the kernel a block it may touch, unless the pointer's bytes are in a gap. -/
theorem argptr_sound_iff (h : p.Layout) {i : ℕ} {size : ℤ} (hsize : size < 2 ^ 31)
    (hi : argint false p mem n = some i) :
    (∀ q, argptr false p mem n size = some q → ∀ k < size.toNat, p.Touchable (q + k)) ↔
      ¬ (0 < size ∧ i ≠ 0 ∧ i + size.toNat < p.shmbreak ∧ p.Gap i size.toNat) := by
  have htop := h.top
  have hbrk := h.brk.trans (h.next.trans h.heap)
  constructor
  · rintro hs ⟨hpos, hi0, hb, hg⟩
    obtain ⟨h1, h2, k, hk, hbad⟩ := block_gap h (by omega) hi0 hb hg
    refine hbad (hs i ?_ k hk)
    have hadd : add32 i size = i + size.toNat :=
      add32_of_lt hpos.le (by simp only [KERNBASE] at htop; omega)
    simp only [argptr, hi, hadd]
    rw [if_neg (by omega), if_neg (by simp [h2])]
  · intro hg q hq k hk
    simp only [argptr, hi] at hq
    split_ifs at hq with h1 h2
    obtain rfl : i = q := by simpa using hq
    have hadd : add32 i size = i + size.toNat :=
      add32_of_lt (by omega) (by simp only [KERNBASE] at htop; omega)
    rw [hadd] at h1 h2
    have h2' : ¬ (inStack p i ∨ inShm p i (i + size.toNat)) := by simpa using h2
    refine block_checked h (by omega) h2' (fun hgap => hg ?_) k hk
    -- a gap lies below the stack area, so the test on shm leaves only the end to bound
    have hlow : i < p.shmtop := by
      have := h.room
      have := h.shm
      have := h.brk
      have := h.next
      have := h.code
      simp only [Proc.Gap, PGSIZE] at *
      omega
    exact ⟨by omega, by omega, by simp only [inShm] at h2'; omega, hgap⟩

theorem strlenTo_eq_some {m s : ℕ} :
    strlenTo mem m s = some len → len < m ∧ mem (s + len) = 0 := by
  induction m generalizing s len with
  | zero => simp [strlenTo]
  | succ m ih =>
    intro hl
    unfold strlenTo at hl
    split_ifs at hl with h0
    · obtain rfl : 0 = len := by simpa using hl
      exact ⟨by omega, h0⟩
    · obtain ⟨l, hl', rfl⟩ := Option.map_eq_some_iff.mp hl
      obtain ⟨h1, h2⟩ := ih hl'
      exact ⟨by omega, by rw [← h2]; congr 1; omega⟩

/-- `fetchstr` accepts a string by its first byte: it is all touchable unless it starts in the
null page or runs into the stack area or into shared memory that is not allocated. -/
theorem fetchstr_sound_iff (h : p.Layout) (hl : fetchstr false p mem a = some len) :
    (∀ k ≤ len, p.Touchable (a + k)) ↔
      ¬ (p.Gap a (len + 1) ∨ (a < p.shmbreak ∧ p.shmbreak ≤ a + len ∧ p.shmbreak < p.shmtop)) := by
  unfold fetchstr at hl
  split_ifs at hl with h1 h2
  have h2' : ¬ (inStack p a ∨ inShm p a a) := by simpa using h2
  have hlen := (strlenTo_eq_some hl).1
  have htop := h.top
  have hroom := h.room
  have hshm := h.shm
  have hbrk := h.brk.trans (h.next.trans h.heap)
  constructor
  · rintro hs ((hg | ⟨hg, hg'⟩) | ⟨hb, hb', hb''⟩)
    · exact absurd (hs 0 (by omega)).not_null (by omega)
    · refine (hs (p.stacklastpg - a) (by omega)).not_stack ?_
      have := h.stack
      simp only [PGSIZE] at *
      omega
    · exact (hs (p.shmbreak - a) (by omega)).not_shm (by omega)
  · intro hg k hk
    simp only [Proc.Gap, inStack, inShm, u32, PGSIZE, KERNBASE] at *
    exact ⟨by omega, by simp only [PGSIZE]; omega, by simp only [PGSIZE]; omega, by omega⟩

/-- Where the argument checks are sound, for a process other than `initproc`. -/
theorem argument_checks_sound_iff (p : Proc) (h : p.Layout) (mem : ℕ → UInt8) :
    (∀ a, (∀ v, fetchint false p mem a = some v → ∀ k < 4, p.Touchable (a + k)) ↔
      ¬ (a ≠ 0 ∧ p.Gap a 4)) ∧
    (∀ n i (size : ℤ), size < 2 ^ 31 → argint false p mem n = some i →
      ((∀ q, argptr false p mem n size = some q → ∀ k < size.toNat, p.Touchable (q + k)) ↔
        ¬ (0 < size ∧ i ≠ 0 ∧ i + size.toNat < p.shmbreak ∧ p.Gap i size.toNat))) ∧
    (∀ a len, fetchstr false p mem a = some len →
      ((∀ k ≤ len, p.Touchable (a + k)) ↔
        ¬ (p.Gap a (len + 1) ∨ (a < p.shmbreak ∧ p.shmbreak ≤ a + len ∧ p.shmbreak < p.shmtop)))) :=
  ⟨fun _ => fetchint_sound_iff h, fun _ _ _ hsize hi => argptr_sound_iff h hsize hi,
    fun _ _ hl => fetchstr_sound_iff h hl⟩

/-- A process just after `exec` of a one-page program, about to make a system call. -/
def callerExample : Proc :=
  { stacklastpg := 0x2000, guardpg := 0x103000, stacktop := 0x105000, shmbreak := 0x105000
    shmnextpg := 0x105000, shmtop := 0x1105000, sz := 0x1105000, esp := 0x104f00 }

theorem callerExample_layout : callerExample.Layout := by
  constructor <;> decide

/-- Its stack holds the pointer 1 as the first argument of the call. -/
def callerStack (va : ℕ) : UInt8 := if va = 0x104f04 then 1 else 0

theorem argument_checks_sound_iff_caller :
    callerExample.Layout ∧ fetchint false callerExample callerStack 0x104f04 = some 1 ∧
      ∀ k < 4, callerExample.Touchable (0x104f04 + k) := by
  have hv : fetchint false callerExample callerStack 0x104f04 = some 1 := by decide
  have hiff := (argument_checks_sound_iff callerExample callerExample_layout callerStack).1 0x104f04
  exact ⟨callerExample_layout, hv, hiff.mpr (by simp [Proc.Gap, callerExample, PGSIZE]) 1 hv⟩

/-- `argptr` accepts eight bytes at address 1, in the null page. -/
theorem argptr_accepts_null_page :
    callerExample.Layout ∧ argptr false callerExample callerStack 0 8 = some 1 ∧
      ¬ callerExample.Touchable 1 :=
  ⟨callerExample_layout, by decide, fun h => absurd h.not_null (by decide)⟩

/-! ### What is refused -/

/-- The memory that a process may use: its program, its stack, the shared memory that is allocated and its heap. -/
structure Proc.MayUse (p : Proc) (va : ℕ) : Prop where
  lt_sz : va < p.sz
  not_null : PGSIZE ≤ va
  area : va < p.stacklastpg ∨ (p.guardpg + PGSIZE ≤ va ∧ va < p.stacktop) ∨ (p.stacktop ≤ va ∧ va < p.shmbreak) ∨
    p.shmtop ≤ va

/-- A block that is all in usable memory passes every check but the one for shared memory. -/
theorem block_usable (h : p.Layout) (hn : 0 < n) (hu : ∀ k < n, p.MayUse (a + k)) :
    a + n ≤ p.sz ∧ ¬ (a ≥ p.sz ∨ a + n > p.sz ∨ a = 0) ∧ ¬ inStack p a := by
  have hfirst := hu 0 hn
  have hlast := hu (n - 1) (by omega)
  have harea := hfirst.area
  have hnull := hfirst.not_null
  have hend := hlast.lt_sz
  have hroom := h.room
  have hstack := h.stack
  have htop := h.top
  have hshm := h.shm.trans (h.brk.trans (h.next.trans h.heap))
  refine ⟨by omega, ?_, ?_⟩
  · simp only [PGSIZE] at hnull
    omega
  · have hbrk := h.shm.trans (h.brk.trans h.next)
    simp only [inStack, u32, PGSIZE, KERNBASE] at *
    omega

/-- `fetchint` and `argptr` accept a block in usable memory unless it reaches the end of the shared memory from below. -/
theorem argument_checks_complete_iff (p : Proc) (h : p.Layout) (mem : ℕ → UInt8) :
    (∀ a, (∀ k < 4, p.MayUse (a + k)) →
      ((∃ v, fetchint false p mem a = some v) ↔ ¬ (a < p.shmtop ∧ p.shmbreak ≤ a + 4))) ∧
    ∀ n i (size : ℤ), 0 < size → size < 2 ^ 31 → argint false p mem n = some i →
      (∀ k < size.toNat, p.MayUse (i + k)) →
      (argptr false p mem n size = some i ↔ ¬ (i < p.shmtop ∧ p.shmbreak ≤ i + size.toNat)) := by
  have htop := h.top
  refine ⟨fun a hu => ?_, fun n i size hpos hsize hi hu => ?_⟩
  · obtain ⟨hend, hchk, hstk⟩ := block_usable h (by decide) hu
    have hadd : u32 (a + 4) = a + 4 := u32_of_lt (by simp only [KERNBASE] at htop; omega)
    unfold fetchint
    rw [hadd, if_neg hchk]
    simp only [hstk, false_or, true_and, inShm]
    split_ifs with hshm
    · simp only [exists_const, false_iff, not_not]
      exact ⟨hshm.2, hshm.1⟩
    · simp only [Option.some.injEq, exists_eq', true_iff]
      exact fun hc => hshm ⟨hc.2, hc.1⟩
  · obtain ⟨hend, hchk, hstk⟩ := block_usable h (by omega) hu
    have hadd : add32 i size = i + size.toNat := add32_of_lt hpos.le (by simp only [KERNBASE] at htop; omega)
    simp only [argptr, hi, hadd]
    rw [if_neg (by omega)]
    simp only [hstk, false_or, true_and, inShm]
    split_ifs with hshm
    · simp only [false_iff, not_not]
      exact ⟨hshm.2, hshm.1⟩
    · simp only [true_iff]
      exact fun hc => hshm ⟨hc.2, hc.1⟩

/-- A word on the stack of the caller. -/
theorem argument_checks_complete_iff_caller :
    callerExample.Layout ∧ (∀ k < 4, callerExample.MayUse (0x104f04 + k)) ∧
      ∃ v, fetchint false callerExample callerStack 0x104f04 = some v := by
  have hu : ∀ k < 4, callerExample.MayUse (0x104f04 + k) := by
    intro k hk
    simp only [callerExample]
    exact ⟨by dsimp only; omega, by simp only [PGSIZE]; omega, .inr (.inl ⟨by simp only [PGSIZE]; omega, by dsimp only; omega⟩)⟩
  have hiff := (argument_checks_complete_iff callerExample callerExample_layout callerStack).1 0x104f04 hu
  exact ⟨callerExample_layout, hu, hiff.2 (by decide)⟩

/-- The last word of the stack, with no shared memory allocated, is refused. -/
theorem last_stack_word_refused :
    callerExample.Layout ∧ (∀ k < 4, callerExample.MayUse (0x104ffc + k)) ∧
      fetchint false callerExample callerStack 0x104ffc = none := by
  refine ⟨callerExample_layout, fun k hk => ?_, by decide⟩
  simp only [callerExample]
  exact ⟨by dsimp only; omega, by simp only [PGSIZE]; omega, .inr (.inl ⟨by simp only [PGSIZE]; omega, by dsimp only; omega⟩)⟩

end Xv6
