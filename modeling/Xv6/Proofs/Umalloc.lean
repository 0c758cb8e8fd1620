import Xv6.Lib.Tiling
import Xv6.Spec.Umalloc
import Mathlib.Tactic.Common

namespace Xv6.Umalloc

open Trace Linked Tiling Function Nat
open List (pairwise_cons mem_cons_of_mem cons_append mem_cons pairwise_append mem_append_left append_of_mem map_cons
  perm_iff_count count_append count_cons mem_append)
open Option (bind_eq_some_iff)

variable {base p bp k x : ℕ} {m m' : Heap} {xs us ws : List ℕ} {live rest : List (ℕ × ℕ)} {b c : ℕ × ℕ}

/-- The blocks of a free list. -/
def Heap.blocks (m : Heap) (xs : List ℕ) : List (ℕ × ℕ) := xs.map fun x => (x, m.size x)

theorem mem_blocks (hx : x ∈ xs) : (x, m.size x) ∈ m.blocks xs := List.mem_map_of_mem hx

theorem blocks_append (xs ys : List ℕ) : m.blocks (xs ++ ys) = m.blocks xs ++ m.blocks ys := List.map_append

theorem blocks_congr (h : ∀ x ∈ xs, m'.size x = m.size x) : m'.blocks xs = m.blocks xs := by
  apply List.map_congr_left
  intro x hx
  rw [h x hx]

/-- The free list is `base` and then `xs`, in the order of addresses; with the blocks handed out it makes up
what `sbrk` gave. -/
structure Ok (base : ℕ) (m : Heap) (xs : List ℕ) (live : List (ℕ × ℕ)) : Prop where
  links : Links m.ptr (base :: xs) base
  base_size : m.size base = 0
  sorted : (base :: xs).Pairwise m.Below
  freep : m.freep ∈ base :: xs
  tiles : Tiles UNIT (base + UNIT) m.top (m.blocks xs ++ live)
  hdr : ∀ b ∈ live, m.size b.1 = b.2
  sum : total (m.blocks xs ++ live) = total m.regions
  base_pos : 0 < base
  base_le : base + UNIT ≤ m.top
  kern : m.regions = [] ∨ m.top < KERNBASE

theorem unit_pos : 0 < UNIT := by decide

theorem Heap.Below.lt {a b : ℕ} (h : m.Below a b) : a < b := lt_of_le_of_lt (le_add_right _ _) h

/-- Two blocks that share no byte have different headers. -/
theorem ne_of_apart (h : Apart UNIT b c) (hb : 0 < b.2) (hc : 0 < c.2) : b.1 ≠ c.1 := by
  have hu := unit_pos
  have h1 := Nat.mul_pos hu hb
  have h2 := Nat.mul_pos hu hc
  rcases h with h | h <;> omega

/-- Of two blocks that share no byte, the one that begins first ends before the other. -/
theorem end_le_of_apart (h : Apart UNIT b c) (hc : 0 < c.2) (hlt : b.1 < c.1) : b.1 + UNIT * b.2 ≤ c.1 := by
  have h2 := Nat.mul_pos unit_pos hc
  rcases h with h | h
  · exact h
  · omega

/-- The place of an address in a list in order. -/
theorem exists_place {c b : ℕ} (hs : (c :: xs).Pairwise (· < ·)) (hc : c < b) (hb : b ∉ xs) :
    ∃ us p ws, c :: xs = us ++ p :: ws ∧ p < b ∧ ∀ w ∈ ws, b < w := by
  induction xs generalizing c with
  | nil => exact ⟨[], c, [], rfl, hc, by simp⟩
  | cons x xs ih =>
    obtain ⟨hcx, hs⟩ := pairwise_cons.1 hs
    by_cases hx : x < b
    · obtain ⟨us, p, ws, he, hp, hw⟩ := ih hs hx fun h => hb (mem_cons_of_mem _ h)
      exact ⟨c :: us, p, ws, by rw [he, cons_append], hp, hw⟩
    · refine ⟨[], c, x :: xs, rfl, hc, fun w hw => ?_⟩
      have hbx : b < x := by
        have : b ≠ x := fun h => hb (h ▸ List.mem_cons_self)
        omega
      rcases mem_cons.1 hw with rfl | hw
      · exact hbx
      · exact hbx.trans ((pairwise_cons.1 hs).1 w hw)

/-- A list cut after one of its elements, without its head. -/
theorem exists_tail {c : ℕ} (hN : c :: xs = us ++ p :: ws) : ∃ t, us ++ [p] = c :: t ∧ xs = t ++ ws := by
  cases us with
  | nil =>
    obtain ⟨rfl, rfl⟩ := List.cons.inj hN
    exact ⟨[], rfl, rfl⟩
  | cons u us =>
    obtain ⟨rfl, rfl⟩ := List.cons.inj hN
    exact ⟨us ++ [p], rfl, by simp⟩

/-- A block that is handed out has its header outside the free list. -/
theorem Ok.live_off (h : Ok base m xs live) (hb : b ∈ live) : b.1 ∉ base :: xs := by
  have hpos := h.tiles.pos b (by simp [hb])
  intro hm
  rcases mem_cons.1 hm with he | hx
  · have := h.tiles.lo_le b (by simp [hb])
    have := unit_pos
    omega
  · have ha := (pairwise_append.1 h.tiles.apart).2.2 _ (mem_blocks hx) b hb
    exact ne_of_apart ha (h.tiles.pos _ (mem_append_left _ (mem_blocks hx))) hpos rfl

/-- A block to free, and where it goes: after `p` and before `ws`. -/
structure Place (base : ℕ) (m : Heap) (us : List ℕ) (p : ℕ) (ws : List ℕ) (bp k : ℕ) : Prop where
  links : Links m.ptr (us ++ p :: ws) base
  sorted : (us ++ p :: ws).Pairwise m.Below
  lt : p < bp
  gt : ∀ w ∈ ws, bp < w
  size : m.size bp = k
  prev : p + UNIT * m.size p ≤ bp
  next : ∀ w ∈ ws, bp + UNIT * k ≤ w

section

variable (h : Ok base m xs ((bp, k) :: live))
include h

theorem Ok.bp_pos : 0 < k := h.tiles.pos (bp, k) (by simp)

theorem Ok.base_lt : base < bp := by
  have := h.tiles.lo_le (bp, k) (by simp)
  have := unit_pos
  dsimp only at *
  omega

theorem Ok.apart_free (hx : x ∈ xs) : Apart UNIT (x, m.size x) (bp, k) ∧ 0 < m.size x := by
  refine ⟨?_, h.tiles.pos _ (mem_append_left _ (mem_blocks hx))⟩
  exact (pairwise_append.1 h.tiles.apart).2.2 _ (mem_blocks hx) _ (by simp)

theorem Ok.bp_not_mem : bp ∉ xs := by
  intro hx
  obtain ⟨ha, hp⟩ := h.apart_free hx
  exact ne_of_apart ha hp h.bp_pos rfl

theorem Ok.place (hN : base :: xs = us ++ p :: ws) (hlt : p < bp) (hgt : ∀ w ∈ ws, bp < w) :
    Place base m us p ws bp k := by
  have hmem : ∀ w ∈ ws, w ∈ xs := by
    intro w hw
    have hw' : w ∈ base :: xs := by
      rw [hN]
      simp [hw]
    have hne : w ≠ base := by
      have := hgt w hw
      have := h.base_lt
      omega
    exact (mem_cons.1 hw').resolve_left hne
  refine ⟨hN ▸ h.links, hN ▸ h.sorted, hlt, hgt, h.hdr (bp, k) (by simp), ?_, fun w hw => ?_⟩
  · have hp : p ∈ base :: xs := by
      rw [hN]
      simp
    rcases mem_cons.1 hp with rfl | hp
    · rw [h.base_size]
      omega
    · exact end_le_of_apart (h.apart_free hp).1 h.bp_pos hlt
  · obtain ⟨ha, hpos⟩ := h.apart_free (hmem w hw)
    exact end_le_of_apart (c := (w, m.size w)) ha.symm hpos (hgt w hw)

/-- The loop of `free` ends at the node before the block. -/
theorem Ok.search_stop : ∃ us p ws, base :: xs = us ++ p :: ws ∧ Place base m us p ws bp k ∧
    search m.ptr (m.stop bp) (xs.length + 1) m.freep = some p := by
  have hsorted : (base :: xs).Pairwise (· < ·) := h.sorted.imp Heap.Below.lt
  have hnext : ∀ {us p ws}, base :: xs = us ++ p :: ws → m.ptr p = ws.headD base := by
    intro us p ws hN
    have hl := h.links
    rw [hN] at hl
    exact (links_append.1 hl).2.1
  -- the node before the block meets the condition
  have hex : ∃ x ∈ base :: xs, m.stop bp x = true := by
    obtain ⟨us, p, ws, hN, hlt, hgt⟩ := exists_place hsorted h.base_lt h.bp_not_mem
    refine ⟨p, by simp [hN], ?_⟩
    rw [Heap.stop, hnext hN]
    cases ws with
    | nil =>
      have hle : base ≤ p := by
        have hp : p ∈ base :: xs := by simp [hN]
        rcases mem_cons.1 hp with rfl | hp
        · exact le_rfl
        · exact ((pairwise_cons.1 hsorted).1 p hp).le
      simp [hlt, hle]
    | cons w ws => simp [hlt, hgt w (by simp)]
  obtain ⟨p, hp, hstop, hs⟩ := h.links.search_ring rfl h.freep hex
  obtain ⟨us, ws, hN⟩ := append_of_mem hp
  refine ⟨us, p, ws, hN, ?_, hs⟩
  rw [Heap.stop, hnext hN] at hstop
  have hs' := hsorted
  rw [hN] at hs'
  have hpw := (pairwise_append.1 hs').2.1
  have hb := h.base_lt
  cases ws with
  | nil =>
    have hlt : p < bp := by
      simp at hstop
      omega
    exact h.place hN hlt (by simp)
  | cons w ws =>
    have hpw' := (pairwise_cons.1 hpw).1 w (by simp)
    have hlt : p < bp ∧ bp < w := by
      simp at hstop
      omega
    refine h.place hN hlt.1 fun v hv => ?_
    rcases mem_cons.1 hv with rfl | hv
    · exact hlt.2
    · exact hlt.2.trans ((pairwise_cons.1 (pairwise_cons.1 hpw).2).1 v hv)

end

section

variable (h : Place base m us p ws bp k)
include h

theorem Place.ptr_eq : m.ptr p = ws.headD base := (links_append.1 h.links).2.1

theorem Place.links_ws : Links m.ptr ws base := (links_append.1 h.links).2.2

theorem Place.sorted_ws : ws.Pairwise m.Below :=
  (pairwise_cons.1 (pairwise_append.1 h.sorted).2.1).2

/-- The other nodes. -/
theorem Place.other (hbp : bp ∉ us ++ p :: ws) (hx : x ∈ us ++ ws) : x ≠ bp ∧ x ≠ p := by
  obtain ⟨-, hpws, hcross⟩ := pairwise_append.1 h.sorted
  constructor
  · rintro rfl
    apply hbp
    simp only [mem_append, mem_cons] at hx ⊢
    tauto
  · rintro rfl
    rcases mem_append.1 hx with hx | hx
    · exact (hcross x hx x (by simp)).lt.false
    · exact ((pairwise_cons.1 hpws).1 x hx).lt.false

/-- What `free` does with the block after `bp`: `ws₁` come after `bp`, which has `k₁` units now. -/
structure Joined (base : ℕ) (m m₁ : Heap) (ws : List ℕ) (bp k : ℕ) (ws₁ : List ℕ) (k₁ : ℕ) : Prop where
  eq : m₁ = (m.setSize bp k₁).setPtr bp (ws₁.headD base)
  links : Links m.ptr ws₁ base
  sub : ws₁ <:+ ws
  above : ∀ w ∈ ws₁, bp + UNIT * k₁ < w
  tiles : ∀ {lo hi rest}, Tiles UNIT lo hi ((bp, k) :: (m.blocks ws ++ rest)) →
    Tiles UNIT lo hi ((bp, k₁) :: (m.blocks ws₁ ++ rest))
  total : k + total (m.blocks ws) = k₁ + total (m.blocks ws₁)

theorem Place.joinNext (hb : base < bp) : ∃ ws₁ k₁, Joined base m (m.joinNext bp p) ws bp k ws₁ k₁ := by
  unfold Heap.joinNext
  rw [h.ptr_eq, h.size]
  by_cases hj : bp + UNIT * k = ws.headD base
  · rw [if_pos hj]
    cases ws with
    | nil =>
      rw [List.headD_nil] at hj
      omega
    | cons w ws =>
      rw [List.headD_cons] at hj ⊢
      obtain ⟨hw, hs⟩ := pairwise_cons.1 h.sorted_ws
      obtain ⟨hl, hls⟩ := h.links_ws
      refine ⟨ws, k + m.size w, by rw [hl], hls, List.suffix_cons _ _, fun v hv => ?_, fun {lo hi rest} ht => ?_, ?_⟩
      · have hv' : w + UNIT * m.size w < v := hw v hv
        rw [mul_add]
        omega
      · apply Tiles.join
        rw [hj]
        exact ht
      · simp only [Heap.blocks, map_cons, total_cons]
        omega
  · rw [if_neg hj]
    refine ⟨ws, k, ?_, h.links_ws, List.suffix_refl _, fun w hw => ?_, id, rfl⟩
    · have hsame : m.setSize bp k = m := by
        unfold Heap.setSize
        rw [← h.size, update_eq_self]
      rw [hsame]
    · cases ws with
      | nil => simp at hw
      | cons v ws =>
        have hv : bp + UNIT * k ≤ v := h.next v (by simp)
        rw [List.headD_cons] at hj
        rcases mem_cons.1 hw with rfl | hw
        · omega
        · have := ((pairwise_cons.1 h.sorted_ws).1 w hw).lt
          omega

end

section

variable {m₁ : Heap} {ws₁ : List ℕ} {k₁ : ℕ} (h : Ok base m xs ((bp, k) :: live)) (hN : base :: xs = us ++ p :: ws)
  (hp : Place base m us p ws bp k) (hj : Joined base m m₁ ws bp k ws₁ k₁)
include h

theorem Ok.live_ne (hb : b ∈ live) : b.1 ≠ bp ∧ b.1 ∉ base :: xs := by
  have ha := (pairwise_cons.1 (pairwise_append.1 h.tiles.apart).2.1).1 b hb
  exact ⟨(ne_of_apart ha h.bp_pos (h.tiles.pos b (by simp [hb]))).symm, h.live_off (mem_cons_of_mem _ hb)⟩

/-- The nodes are now `vs`, then `y` with `k'` units, then `ws₁`; the others have the sizes they had. -/
theorem Ok.relist {vs t : List ℕ} {y k' : ℕ} (hvs : vs = base :: t) (m' : Heap) (hsize : m'.size y = k')
    (hsz : ∀ x, x ∈ vs ∨ x ∈ ws₁ → m'.size x = m.size x) (hlive : ∀ b ∈ live, m'.size b.1 = m.size b.1)
    (hlinks : Links m'.ptr (vs ++ y :: ws₁) base) (hsorted : vs.Pairwise m.Below)
    (hws : ws₁.Pairwise m.Below) (hy : ∀ a ∈ vs, m.Below a y) (habove : ∀ w ∈ ws₁, y + UNIT * k' < w)
    (htiles : Tiles UNIT (base + UNIT) m.top ((y, k') :: (m.blocks ws₁ ++ (m.blocks t ++ live))))
    (htotal : total ((y, k') :: (m.blocks ws₁ ++ (m.blocks t ++ live))) = total m.regions)
    (hfreep : m'.freep ∈ vs ++ y :: ws₁) (htop : m'.top = m.top) (hreg : m'.regions = m.regions) :
    ∃ xs', Ok base m' xs' live ∧ (y, k') ∈ m'.blocks xs' := by
  subst hsize hvs
  have hblocks : m'.blocks (t ++ y :: ws₁) = m.blocks t ++ (y, m'.size y) :: m.blocks ws₁ := by
    have h1 : m'.blocks t = m.blocks t := blocks_congr fun x hx => hsz x (.inl (mem_cons_of_mem _ hx))
    have h2 : m'.blocks ws₁ = m.blocks ws₁ := blocks_congr fun x hx => hsz x (.inr hx)
    rw [blocks_append, h1, ← h2]
    rfl
  have hperm : ((y, m'.size y) :: (m.blocks ws₁ ++ (m.blocks t ++ live))).Perm (m'.blocks (t ++ y :: ws₁) ++ live) := by
    rw [hblocks]
    apply perm_iff_count.2
    intro b
    simp only [count_append, count_cons]
    omega
  have hbel : ∀ {a b}, a ∈ base :: t ∨ a ∈ ws₁ → m.Below a b → m'.Below a b := by
    intro a b ha hab
    rw [Heap.Below, hsz a ha]
    exact hab
  refine ⟨t ++ y :: ws₁, ⟨hlinks, ?_, ?_, hfreep, ?_, fun b hb => ?_, ?_, h.base_pos, htop ▸ h.base_le, ?_⟩, by simp [hblocks]⟩
  · rw [hsz base (.inl List.mem_cons_self), h.base_size]
  · rw [← cons_append]
    refine pairwise_append.2 ⟨hsorted.imp_of_mem fun ha _ => hbel (.inl ha),
      pairwise_cons.2 ⟨habove, hws.imp_of_mem fun ha _ => hbel (.inr ha)⟩, fun a ha b hb => hbel (.inl ha) ?_⟩
    have hay := hy a ha
    rcases mem_cons.1 hb with rfl | hb
    · exact hay
    · have hyb := habove b hb
      unfold Heap.Below at hay ⊢
      omega
  · rw [htop]
    exact htiles.perm hperm
  · rw [hlive b hb]
    exact h.hdr b (mem_cons_of_mem _ hb)
  · rw [← total_perm hperm, htotal, hreg]
  · rw [hreg, htop]
    exact h.kern

include hN

theorem Ok.bp_not_node : bp ∉ us ++ p :: ws := by
  rw [← hN]
  intro hm
  rcases mem_cons.1 hm with he | hx
  · exact h.base_lt.ne' he
  · exact h.bp_not_mem hx

omit hN in
include hj in
theorem Ok.tiles_joined {t : List ℕ} (ht : xs = t ++ ws) :
    Tiles UNIT (base + UNIT) m.top ((bp, k₁) :: (m.blocks ws₁ ++ (m.blocks t ++ live))) ∧
      total ((bp, k₁) :: (m.blocks ws₁ ++ (m.blocks t ++ live))) = total m.regions := by
  have hperm : (m.blocks xs ++ (bp, k) :: live).Perm ((bp, k) :: (m.blocks ws ++ (m.blocks t ++ live))) := by
    rw [ht, blocks_append]
    apply perm_iff_count.2
    intro b
    simp only [count_append, count_cons]
    omega
  refine ⟨hj.tiles (h.tiles.perm hperm), ?_⟩
  have hsum := h.sum
  rw [total_perm hperm] at hsum
  have htot := hj.total
  rw [← hsum]
  simp only [total_cons, total_append] at *
  omega

include hp hj

/-- The block is linked in after `p`. -/
theorem Ok.link_in (m' : Heap) (hne : p + UNIT * m.size p ≠ bp) (hsize : m'.size = update m.size bp k₁)
    (hptr : m'.ptr = update (update m.ptr bp (ws₁.headD base)) p bp) (hfreep : m'.freep = p)
    (htop : m'.top = m.top) (hreg : m'.regions = m.regions) :
    ∃ xs', Ok base m' xs' live ∧ (bp, k₁) ∈ m'.blocks xs' := by
  have hbp := h.bp_not_node hN
  obtain ⟨t, ht, hxs⟩ := exists_tail hN
  obtain ⟨htiles, htotal⟩ := h.tiles_joined hj hxs
  have hws : ∀ w ∈ ws₁, w ∈ ws := fun w hw => hj.sub.subset hw
  obtain ⟨hus, hpws, hcross⟩ := pairwise_append.1 hp.sorted
  obtain ⟨hpw, hwsort⟩ := pairwise_cons.1 hpws
  -- only `bp` has a new size, only `bp` and `p` have new links
  have hsz : ∀ x ∈ us ++ p :: ws, m'.size x = m.size x := by
    intro x hx
    have hxb : x ≠ bp := fun he => hbp (he ▸ hx)
    rw [hsize, update_of_ne hxb]
  have hlk : ∀ x ∈ us ++ ws, m'.ptr x = m.ptr x := by
    intro x hx
    obtain ⟨hxb, hxp⟩ := hp.other hbp hx
    rw [hptr, update_of_ne hxp, update_of_ne hxb]
  refine h.relist ht m' (by rw [hsize, update_self]) (fun x hx => hsz x ?_) (fun b hb => ?_) ?_ ?_
    (hwsort.sublist hj.sub.sublist) (fun a ha => ?_) hj.above htiles htotal (by simp [hfreep]) htop hreg
  · rcases hx with hx | hx
    · simp only [mem_append, mem_cons] at hx ⊢
      tauto
    · simp [hws x hx]
  · rw [hsize, update_of_ne (h.live_ne hb).1]
  · rw [List.append_assoc]
    refine links_append.2 ⟨?_, ?_, ?_, ?_⟩
    · exact ((links_append.1 hp.links).1).congr fun x hx => hlk x (by simp [hx])
    · rw [hptr, update_self]
      rfl
    · rw [hptr, update_of_ne hp.lt.ne', update_self]
    · exact hj.links.congr fun x hx => hlk x (by simp [hws x hx])
  · exact pairwise_append.2 ⟨hus, List.pairwise_singleton _ _, fun a ha b hb => hcross a ha b (by simp_all)⟩
  · rcases mem_append.1 ha with ha | ha
    · exact (hcross a ha p (by simp)).trans hp.lt
    · obtain rfl := List.mem_singleton.1 ha
      have := hp.prev
      unfold Heap.Below
      omega

/-- The block joins `p`. -/
theorem Ok.join_in (m' : Heap) (he : p + UNIT * m.size p = bp)
    (hsize : m'.size = update (update m.size bp k₁) p (m.size p + k₁))
    (hptr : m'.ptr = update (update m.ptr bp (ws₁.headD base)) p (ws₁.headD base))
    (hfreep : m'.freep = p) (htop : m'.top = m.top) (hreg : m'.regions = m.regions) :
    ∃ xs', Ok base m' xs' live ∧ (p, m.size p + k₁) ∈ m'.blocks xs' := by
  have hbp := h.bp_not_node hN
  -- `base` has no units, so `p` is another node
  obtain ⟨us', rfl, rfl⟩ : ∃ us', us = base :: us' ∧ xs = us' ++ p :: ws := by
    cases us with
    | nil =>
      obtain ⟨rfl, rfl⟩ := List.cons.inj hN
      rw [h.base_size] at he
      exact absurd h.base_lt (by omega)
    | cons u us' =>
      obtain ⟨rfl, rfl⟩ := List.cons.inj hN
      exact ⟨us', rfl, rfl⟩
  obtain ⟨htiles, htotal⟩ := h.tiles_joined hj (t := us' ++ [p]) (by simp)
  have hws : ∀ w ∈ ws₁, w ∈ ws := fun w hw => hj.sub.subset hw
  obtain ⟨hus, hpws, hcross⟩ := pairwise_append.1 hp.sorted
  obtain ⟨hpw, hwsort⟩ := pairwise_cons.1 hpws
  have hlk : ∀ x ∈ (base :: us') ++ ws, m'.ptr x = m.ptr x := by
    intro x hx
    obtain ⟨hxb, hxp⟩ := hp.other hbp hx
    rw [hptr, update_of_ne hxp, update_of_ne hxb]
  have hperm : ((bp, k₁) :: (m.blocks ws₁ ++ (m.blocks (us' ++ [p]) ++ live))).Perm
      ((p, m.size p) :: (bp, k₁) :: (m.blocks ws₁ ++ (m.blocks us' ++ live))) := by
    rw [blocks_append]
    apply perm_iff_count.2
    intro b
    simp only [Heap.blocks, map_cons, List.map_nil, count_append, count_cons, List.count_nil]
    omega
  rw [total_perm hperm] at htotal
  replace htiles := htiles.perm hperm
  rw [← he] at htiles
  refine h.relist rfl m' (by rw [hsize, update_self]) (fun x hx => ?_) (fun b hb => ?_)
    (links_append.2 ⟨?_, ?_, ?_⟩) hus (hwsort.sublist hj.sub.sublist) (fun a ha => hcross a ha p (by simp))
    (fun w hw => ?_) htiles.join ?_ (by simp [hfreep]) htop hreg
  · obtain ⟨hxb, hxp⟩ := hp.other hbp (mem_append.2 (hx.imp id (hws x)))
    rw [hsize, update_of_ne hxp, update_of_ne hxb]
  · obtain ⟨h1, h2⟩ := h.live_ne hb
    have hbp' : b.1 ≠ p := fun hb' => h2 (by simp [hb'])
    rw [hsize, update_of_ne hbp', update_of_ne h1]
  · exact ((links_append.1 hp.links).1).congr fun x hx => hlk x (mem_append_left _ hx)
  · rw [hptr, update_self]
  · exact hj.links.congr fun x hx => hlk x (List.mem_append_right _ (hws x hx))
  · have hab := hj.above w hw
    rw [mul_add]
    omega
  · rw [← htotal]
    simp only [total_cons]
    omega

end

variable {fuel fuel' : ℕ}

theorem free_mono {ap : ℕ} (h : m.free fuel ap = some m') (hf : fuel ≤ fuel') : m.free fuel' ap = some m' := by
  unfold Heap.free at h ⊢
  obtain ⟨p, hs, hm⟩ := bind_eq_some_iff.1 h
  exact bind_eq_some_iff.2 ⟨p, search_mono hs hf, hm⟩

/-- `free` ends, and puts the block into the free list. -/
theorem Ok.free (h : Ok base m xs ((bp, k) :: live)) (hf : xs.length + 1 ≤ fuel) :
    ∃ m' xs', m.free fuel (bp + UNIT) = some m' ∧ Ok base m' xs' live ∧ (∃ x ∈ xs', k ≤ m'.size x) := by
  obtain ⟨us, p, ws, hN, hp, hs⟩ := h.search_stop
  obtain ⟨ws₁, k₁, hj⟩ := hp.joinNext h.base_lt
  have hpbp : p ≠ bp := hp.lt.ne
  have hk : k ≤ k₁ := by
    have h1 := hj.total
    have h2 : total (m.blocks ws₁) ≤ total (m.blocks ws) := by
      obtain ⟨vs, rfl⟩ := hj.sub
      rw [blocks_append, total_append]
      exact le_add_left _ _
    omega
  have hfree : m.free fuel (bp + UNIT) = some { (m.joinNext bp p).joinPrev bp p with freep := p } := by
    unfold Heap.free
    rw [Nat.add_sub_cancel]
    exact bind_eq_some_iff.2 ⟨p, search_mono hs hf, rfl⟩
  have hsize_p : (m.joinNext bp p).size p = m.size p := by
    rw [hj.eq]
    exact update_of_ne hpbp _ _
  have hsize_bp : (m.joinNext bp p).size bp = k₁ := by
    rw [hj.eq]
    exact update_self ..
  have hptr_bp : (m.joinNext bp p).ptr bp = ws₁.headD base := by
    rw [hj.eq]
    exact update_self ..
  have hfits : ∀ {m' : Heap} {xs'} {b : ℕ × ℕ}, b ∈ m'.blocks xs' → k ≤ b.2 → ∃ x ∈ xs', k ≤ m'.size x := by
    intro m' xs' b hb hle
    obtain ⟨x, hx, rfl⟩ := List.mem_map.1 hb
    exact ⟨x, hx, hle⟩
  rw [hfree]
  unfold Heap.joinPrev
  rw [hsize_p, hsize_bp, hptr_bp, hj.eq]
  split_ifs with he
  · obtain ⟨xs', hok, hmem⟩ := h.join_in hN hp hj { (((m.setSize bp k₁).setPtr bp (ws₁.headD base)).setSize p
      (m.size p + k₁)).setPtr p (ws₁.headD base) with freep := p } he rfl rfl rfl rfl rfl
    exact ⟨_, xs', rfl, hok, hfits hmem (hk.trans (le_add_left _ _))⟩
  · obtain ⟨xs', hok, hmem⟩ := h.link_in hN hp hj { ((m.setSize bp k₁).setPtr bp (ws₁.headD base)).setPtr p bp
      with freep := p } he rfl rfl rfl rfl rfl
    exact ⟨_, xs', rfl, hok, hfits hmem hk⟩

/-! ### Allocation -/

section

variable {n x y : ℕ} (h : Ok base m xs live)
include h

/-- Two nodes that are linked stand one after the other in the list, but for the link to `base`. -/
theorem Ok.consecutive (hx : x ∈ base :: xs) (hy : m.ptr x = y) (hb : y ≠ base) :
    ∃ us vs, base :: xs = us ++ x :: y :: vs := by
  obtain ⟨us, ws, hN⟩ := append_of_mem hx
  have hl := h.links
  rw [hN] at hl
  have hnext := (links_append.1 hl).2.1
  cases ws with
  | nil => exact absurd (hy.symm.trans hnext) hb
  | cons w ws =>
    obtain rfl : y = w := hy.symm.trans hnext
    exact ⟨us, ws, hN⟩

/-- A block is taken whole. -/
theorem Ok.take_whole (hx : x ∈ base :: xs) (hy : m.ptr x = y) (hn : m.size y = n) (hpos : 0 < n) :
    ∃ xs', Ok base { m.setPtr x (m.ptr y) with freep := x } xs' ((y, n) :: live) := by
  have hyb : y ≠ base := by
    rintro rfl
    rw [h.base_size] at hn
    omega
  obtain ⟨us, vs, hN⟩ := h.consecutive hx hy hyb
  obtain ⟨t, ht, hxs⟩ := exists_tail hN
  have hbase : base :: (t ++ vs) = us ++ x :: vs := by
    rw [← cons_append, ← ht]
    simp
  have hsorted := h.sorted
  have hlinks := h.links
  rw [hN] at hsorted hlinks
  obtain ⟨hus, hxs', hcross⟩ := pairwise_append.1 hsorted
  obtain ⟨hxy, hyvs⟩ := pairwise_cons.1 hxs'
  obtain ⟨hl1, hl2, hl3, hl4⟩ := links_append.1 hlinks
  have hsub : (us ++ x :: vs).Sublist (us ++ x :: y :: vs) := by
    apply List.Sublist.append_left
    exact .cons_cons _ (List.sublist_cons_self y vs)
  have hlk : ∀ z ∈ us ++ vs, update m.ptr x (m.ptr y) z = m.ptr z := by
    intro z hz
    apply update_of_ne
    rintro rfl
    rcases mem_append.1 hz with hz | hz
    · exact (hcross z hz z (by simp)).lt.false
    · exact (hxy z (by simp [hz])).lt.false
  have hperm : (m.blocks xs ++ live).Perm (m.blocks (t ++ vs) ++ (y, n) :: live) := by
    rw [hxs, blocks_append, blocks_append]
    apply perm_iff_count.2
    intro b
    simp only [Heap.blocks, map_cons, count_append, count_cons, hn]
    omega
  refine ⟨t ++ vs, ?_, h.base_size, ?_, ?_, h.tiles.perm hperm, List.forall_mem_cons.2 ⟨hn, h.hdr⟩,
    (total_perm hperm).symm.trans h.sum, h.base_pos, h.base_le, h.kern⟩
  · rw [hbase]
    refine links_append.2 ⟨?_, ?_, ?_⟩
    · exact hl1.congr fun z hz => hlk z (by simp [hz])
    · exact (update_self ..).trans hl3
    · exact hl4.congr fun z hz => hlk z (by simp [hz])
  · rw [hbase]
    exact hsorted.sublist hsub
  · rw [hbase]
    simp

/-- The tail of a block is taken. -/
theorem Ok.take_tail (hx : x ∈ base :: xs) (hy : m.ptr x = y) (hn : n < m.size y) (hpos : 0 < n) :
    Ok base { (m.setSize y (m.size y - n)).setSize (y + UNIT * (m.size y - n)) n with freep := x } xs
      ((y + UNIT * (m.size y - n), n) :: live) := by
  have hyb : y ≠ base := by
    rintro rfl
    rw [h.base_size] at hn
    omega
  obtain ⟨us, vs, hN⟩ := h.consecutive hx hy hyb
  have hyx : y ∈ xs := by
    have : y ∈ base :: xs := by simp [hN]
    exact (mem_cons.1 this).resolve_left hyb
  obtain ⟨t, ws, rfl⟩ := append_of_mem hyx
  obtain ⟨left, hleft⟩ := Nat.exists_eq_add_of_lt hn
  have hl : m.size y - n = left + 1 := by omega
  rw [hl]
  have hsplit : Tiles UNIT (base + UNIT) m.top
      ((y, left + 1) :: (y + UNIT * (left + 1), n) :: (m.blocks (t ++ ws) ++ live)) := by
    apply Tiles.split _ (succ_pos _) hpos
    have hk : left + 1 + n = m.size y := by omega
    rw [hk]
    apply h.tiles.perm
    rw [blocks_append, blocks_append]
    apply perm_iff_count.2
    intro b
    simp only [Heap.blocks, map_cons, count_append, count_cons]
    omega
  generalize hq : y + UNIT * (left + 1) = q at hsplit
  obtain ⟨-, -, -, -, htail⟩ := tiles_cons.1 hsplit
  obtain ⟨hap, -, hlo, -, hrest⟩ := tiles_cons.1 htail
  have hqy : q ≠ y := by
    have : 0 < UNIT * (left + 1) := Nat.mul_pos unit_pos (Nat.succ_pos left)
    omega
  have hne : ∀ b ∈ m.blocks (t ++ ws) ++ live, b.1 ≠ q := fun b hb =>
    (ne_of_apart (hap b hb) hpos (hrest.pos b hb)).symm
  have hqb : base ≠ q := by
    have := unit_pos
    dsimp only at hlo
    omega
  have hsz : ∀ {z}, z ≠ q → z ≠ y → update (update m.size y (left + 1)) q n z = m.size z := by
    intro z h1 h2
    rw [update_of_ne h1, update_of_ne h2]
  have hszy : update (update m.size y (left + 1)) q n y = left + 1 := by
    rw [update_of_ne hqy.symm, update_self]
  have hnodup : (t ++ y :: ws).Nodup := ((pairwise_cons.1 h.sorted).2.imp Heap.Below.lt).imp Nat.ne_of_lt
  have hsame : ∀ z ∈ t ++ ws, update (update m.size y (left + 1)) q n z = m.size z := by
    intro z hz
    refine hsz (hne (z, m.size z) (mem_append_left _ (mem_blocks hz))) ?_
    rintro rfl
    exact (List.nodup_cons.1 (List.perm_middle.nodup_iff.1 hnodup)).1 hz
  have hperm : ((y, left + 1) :: (q, n) :: (m.blocks (t ++ ws) ++ live)).Perm
      (Heap.blocks { (m.setSize y (left + 1)).setSize q n with freep := x } (t ++ y :: ws) ++ (q, n) :: live) := by
    have h1 : Heap.blocks { (m.setSize y (left + 1)).setSize q n with freep := x } (t ++ ws) = m.blocks (t ++ ws) :=
      blocks_congr hsame
    rw [← h1, blocks_append, blocks_append]
    apply perm_iff_count.2
    intro b
    have h2 : ((m.setSize y (left + 1)).setSize q n).size y = left + 1 := hszy
    simp only [Heap.blocks, map_cons, count_append, count_cons, h2]
    omega
  refine ⟨h.links, ?_, ?_, hx, hsplit.perm hperm, ?_, ?_, h.base_pos, h.base_le, h.kern⟩
  · exact (hsz hqb hyb.symm).trans h.base_size
  · apply h.sorted.imp_of_mem
    intro a b ha _ hab
    have hle : Heap.size { (m.setSize y (left + 1)).setSize q n with freep := x } a ≤ m.size a := by
      rcases mem_cons.1 ha with rfl | ha
      · exact (hsz hqb hyb.symm).le
      · by_cases hay : a = y
        · subst hay
          exact hszy.le.trans (by omega)
        · refine (hsame a ?_).le
          simp only [mem_append, mem_cons] at ha ⊢
          tauto
    exact Nat.lt_of_le_of_lt (Nat.add_le_add_left (Nat.mul_le_mul_left _ hle) _) hab
  · refine List.forall_mem_cons.2 ⟨update_self .., fun b hb => ?_⟩
    have hby : b.1 ≠ y := fun he => h.live_off hb (by simp [he])
    exact (hsz (hne b (List.mem_append_right _ hb)) hby).trans (h.hdr b hb)
  · rw [← total_perm hperm]
    refine Eq.trans ?_ h.sum
    simp only [Heap.blocks, List.map_append, map_cons, total_cons, total_append]
    omega

/-- A fitting block that follows `x` gives a block of `n` units. -/
theorem Ok.carve (hx : x ∈ base :: xs) (hy : m.ptr x = y) (hn : n ≤ m.size y) (hpos : 0 < n) :
    ∃ q xs', (m.carve n x y).2 = q + UNIT ∧ (m.carve n x y).1.size q = n ∧
      Ok base (m.carve n x y).1 xs' ((q, n) :: live) := by
  unfold Heap.carve
  split_ifs with he
  · obtain ⟨xs', hok⟩ := h.take_whole hx hy he hpos
    exact ⟨y, xs', rfl, he, hok⟩
  · exact ⟨_, xs, rfl, update_self .., h.take_tail hx hy (by omega) hpos⟩

end

section

variable {sbrk : Sbrk} {n a : ℕ} {l : List ℕ} {r : Heap × ℕ}

/-- What the loop of `malloc` does at the end of a round without a fit. -/
def grow (sbrk : Sbrk) (n fuel : ℕ) (m : Heap) : Option (Heap × ℕ) := do
  let r ← m.morecore sbrk fuel n
  if r.2 = 0 then some (r.1, 0) else mallocLoop sbrk n fuel r.1 r.2 (r.1.ptr r.2)

theorem mallocLoop_fits (h : n ≤ m.size p) : mallocLoop sbrk n (fuel + 1) m a p = some (m.carve n a p) := by
  rw [mallocLoop, if_pos h]

theorem mallocLoop_freep (h : m.size p < n) (hp : p = m.freep) :
    mallocLoop sbrk n (fuel + 1) m a p = grow sbrk n fuel m := by
  rw [mallocLoop, if_neg (not_le.2 h), if_pos hp]
  rfl

theorem mallocLoop_next (h : m.size p < n) (hp : p ≠ m.freep) :
    mallocLoop sbrk n (fuel + 1) m a p = mallocLoop sbrk n fuel m p (m.ptr p) := by
  rw [mallocLoop, if_neg (not_le.2 h), if_neg hp]

/-- A round from `a` along `l` up to `freep`: a fit is found on it, or more memory is asked for. -/
theorem mallocLoop_round (sbrk : Sbrk) (n : ℕ) (hl : Links m.ptr (a :: l) m.freep) (hne : ∀ x ∈ l, x ≠ m.freep) :
    (∃ x ∈ a :: l, n ≤ m.size (m.ptr x) ∧ ∀ fuel,
        mallocLoop sbrk n (fuel + (l.length + 1)) m a (m.ptr a) = some (m.carve n x (m.ptr x))) ∨
      (∀ x ∈ l ++ [m.freep], m.size x < n) ∧ ∀ fuel,
        mallocLoop sbrk n (fuel + (l.length + 1)) m a (m.ptr a) = grow sbrk n fuel m := by
  induction l generalizing a with
  | nil =>
    have hp : m.ptr a = m.freep := hl.1
    rcases lt_or_ge (m.size (m.ptr a)) n with hlt | hge
    · refine .inr ⟨fun x hx => ?_, fun fuel => mallocLoop_freep hlt hp⟩
      obtain rfl : x = m.freep := by simpa using hx
      exact hp ▸ hlt
    · exact .inl ⟨a, by simp, hge, fun fuel => mallocLoop_fits hge⟩
  | cons b l ih =>
    obtain ⟨hp, hl⟩ := hl
    rw [List.headD_cons] at hp
    rcases lt_or_ge (m.size (m.ptr a)) n with hlt | hge
    · have hstep : ∀ fuel, mallocLoop sbrk n (fuel + ((b :: l).length + 1)) m a (m.ptr a)
          = mallocLoop sbrk n (fuel + (l.length + 1)) m b (m.ptr b) := by
        intro fuel
        rw [List.length_cons, ← add_assoc fuel, mallocLoop_next hlt (hp ▸ hne b (by simp)), hp]
      simp only [hstep]
      rcases ih hl fun x hx => hne x (mem_cons_of_mem _ hx) with ⟨x, hx, hfit, he⟩ | ⟨hall, he⟩
      · exact .inl ⟨x, mem_cons_of_mem _ hx, hfit, he⟩
      · exact .inr ⟨List.forall_mem_cons.2 ⟨hp ▸ hlt, hall⟩, he⟩
    · exact .inl ⟨a, by simp, hge, fun fuel => mallocLoop_fits hge⟩

/-- The ring read from `freep`. -/
theorem Ok.from_freep (h : Ok base m xs live) : ∃ l, Links m.ptr (m.freep :: l) m.freep ∧
    (m.freep :: l).Perm (base :: xs) ∧ ∀ x ∈ l, x ≠ m.freep := by
  obtain ⟨us, ws, hN⟩ := append_of_mem h.freep
  have hl := h.links
  rw [hN] at hl
  have hperm : (m.freep :: (ws ++ us)).Perm (base :: xs) := by
    rw [hN, ← cons_append]
    exact List.perm_append_comm
  have hnodup : (base :: xs).Nodup := (h.sorted.imp Heap.Below.lt).imp ne_of_lt
  refine ⟨ws ++ us, hl.rotate (by rw [← hN]; rfl), hperm, fun x hx he => ?_⟩
  exact (List.nodup_cons.1 (hperm.nodup_iff.2 hnodup)).1 (he ▸ hx)

/-- A new region above the others, not in the free list yet. -/
theorem Ok.region (h : Ok base m xs live) {hp nu : ℕ} (hnu : 0 < nu) (htop : m.top ≤ hp)
    (hk : hp + nu * UNIT < KERNBASE) :
    Ok base ({ m with top := hp + nu * UNIT, regions := (hp, nu) :: m.regions }.setSize hp nu) xs
      ((hp, nu) :: live) := by
  have hne : ∀ b ∈ m.blocks xs ++ live, b.1 ≠ hp := by
    intro b hb
    have h1 := h.tiles.le_hi b hb
    have h2 := Nat.mul_pos unit_pos (h.tiles.pos b hb)
    omega
  have hbase : base ≠ hp := by
    have := h.base_le
    have := unit_pos
    omega
  have hsz : ∀ {x}, x ≠ hp → update m.size hp nu x = m.size x := fun hx => update_of_ne hx _ _
  have hxs : ∀ x ∈ xs, update m.size hp nu x = m.size x := fun x hx =>
    hsz (hne _ (mem_append_left _ (mem_blocks hx)))
  have hblocks : Heap.blocks ({ m with top := hp + nu * UNIT, regions := (hp, nu) :: m.regions }.setSize hp nu) xs
      = m.blocks xs := blocks_congr hxs
  have htiles := h.tiles.above htop h.base_le hnu
  rw [mul_comm] at htiles
  refine ⟨h.links, (hsz hbase).trans h.base_size, ?_, h.freep, ?_, ?_, ?_, h.base_pos, ?_, .inr hk⟩
  · apply h.sorted.imp_of_mem
    intro a b ha _ hab
    have hsame : update m.size hp nu a = m.size a := by
      rcases mem_cons.1 ha with rfl | ha
      · exact hsz hbase
      · exact hxs a ha
    exact (congrArg (fun k => a + UNIT * k < b) hsame).mpr hab
  · rw [hblocks]
    exact htiles.perm List.perm_middle.symm
  · refine List.forall_mem_cons.2 ⟨update_self .., fun b hb => ?_⟩
    exact (hsz (hne b (List.mem_append_right _ hb))).trans (h.hdr b hb)
  · rw [hblocks]
    have hsum := h.sum
    refine Eq.trans ?_ (congrArg (nu + ·) hsum)
    simp only [total_append, total_cons]
    omega
  · exact (h.base_le.trans htop).trans (le_add_right _ _)

/-- `morecore` fails and changes nothing, or ends with a block that is large enough in the free list. -/
theorem Ok.morecore (h : Ok base m xs live) (hs : sbrk.Fresh) :
    (∀ fuel, m.morecore sbrk fuel n = some (m, 0)) ∨
      ∃ m' xs', (∀ fuel, xs.length + 1 ≤ fuel → m.morecore sbrk fuel n = some (m', m'.freep)) ∧
        Ok base m' xs' live ∧ ∃ x ∈ xs', n ≤ m'.size x := by
  unfold Heap.morecore
  dsimp only
  have hnu : 0 < (if n < 4096 then 4096 else n) ∧ n ≤ if n < 4096 then 4096 else n := by
    split_ifs <;> omega
  generalize (if n < 4096 then 4096 else n) = nu at hnu
  cases hsb : sbrk m.top (nu * UNIT) with
  | none => exact .inl fun _ => rfl
  | some hp =>
    obtain ⟨htop, hk⟩ := hs _ _ _ hsb
    have hreg := h.region hnu.1 htop hk
    obtain ⟨m', xs', hfree, hok, x, hx, hle⟩ := hreg.free le_rfl
    refine .inr ⟨m', xs', fun fuel hf => ?_, hok, x, hx, hnu.2.trans hle⟩
    exact bind_eq_some_iff.2 ⟨m', free_mono hfree hf, rfl⟩

/-- The loop from `freep`: it takes a block from the free list, or asks for more memory when none fits. -/
theorem Ok.one_round (h : Ok base m xs live) (sbrk : Sbrk) (hpos : 0 < n) :
    (∃ m' q xs', (∀ fuel, mallocLoop sbrk n (fuel + (xs.length + 1)) m m.freep (m.ptr m.freep)
          = some (m', q + UNIT)) ∧
        m'.size q = n ∧ Ok base m' xs' ((q, n) :: live)) ∨
      (∀ x ∈ xs, m.size x < n) ∧
        ∀ fuel, mallocLoop sbrk n (fuel + (xs.length + 1)) m m.freep (m.ptr m.freep) = grow sbrk n fuel m := by
  obtain ⟨l, hl, hperm, hne⟩ := h.from_freep
  have hlen : l.length = xs.length := by simpa using hperm.length_eq
  rw [← hlen]
  rcases mallocLoop_round sbrk n hl hne with ⟨x, hx, hfit, he⟩ | ⟨hall, he⟩
  · obtain ⟨q, xs', hq, hsize, hok⟩ := h.carve (hperm.mem_iff.1 hx) rfl hfit hpos
    refine .inl ⟨_, q, xs', fun fuel => ?_, hsize, hok⟩
    rw [he fuel, ← hq]
  · refine .inr ⟨fun x hx => hall x ?_, he⟩
    have hm : x ∈ m.freep :: l := hperm.mem_iff.2 (mem_cons_of_mem _ hx)
    simp only [mem_append, mem_cons, List.not_mem_nil, or_false] at hm ⊢
    exact hm.symm

theorem Ok.freep_ne (h : Ok base m xs live) : m.freep ≠ 0 := by
  intro h0
  have hm := h.freep
  rw [h0] at hm
  rcases mem_cons.1 hm with hb | hb
  · exact h.base_pos.ne hb
  · have := ((pairwise_cons.1 h.sorted).1 0 hb).lt
    omega

/-- The loop ends: without a block, or with one of `n` units. -/
theorem Ok.malloc_ends (h : Ok base m xs live) (hs : sbrk.Fresh) (hpos : 0 < n) :
    ∃ fuel m' r xs', mallocLoop sbrk n fuel m m.freep (m.ptr m.freep) = some (m', r) ∧
      ((r = 0 ∧ Ok base m' xs' live) ∨
        ∃ q, r = q + UNIT ∧ m'.size q = n ∧ Ok base m' xs' ((q, n) :: live)) := by
  rcases h.one_round sbrk hpos with ⟨m', q, xs', he, hsize, hok⟩ | ⟨-, he⟩
  · exact ⟨_, m', _, xs', he 0, .inr ⟨q, rfl, hsize, hok⟩⟩
  rcases h.morecore (n := n) hs with hfail | ⟨m₁, xs₁, hmore, hok₁, x, hx, hle⟩
  · refine ⟨_, m, 0, xs, (he 0).trans ?_, .inl ⟨rfl, h⟩⟩
    rw [grow, hfail]
    rfl
  -- with the new memory in the list a second round finds a fit
  rcases hok₁.one_round sbrk hpos with ⟨m', q, xs', he', hsize, hok⟩ | ⟨hall, -⟩
  · refine ⟨_, m', _, xs', (he (xs.length + 1 + (xs₁.length + 1))).trans ?_, .inr ⟨q, rfl, hsize, hok⟩⟩
    rw [grow, hmore _ (le_add_right _ _)]
    exact (if_neg hok₁.freep_ne).trans (he' _)
  · exact absurd (hall x hx) (not_lt.2 hle)

theorem morecore_mono (h : m.morecore sbrk fuel n = some r) (hf : fuel ≤ fuel') :
    m.morecore sbrk fuel' n = some r := by
  unfold Heap.morecore at h ⊢
  dsimp only at h ⊢
  split at h
  · exact h
  · obtain ⟨m', hfree, hr⟩ := bind_eq_some_iff.1 h
    exact bind_eq_some_iff.2 ⟨m', free_mono hfree hf, hr⟩

theorem mallocLoop_mono (h : mallocLoop sbrk n fuel m a p = some r)
    (hf : fuel ≤ fuel') : mallocLoop sbrk n fuel' m a p = some r := by
  induction fuel generalizing fuel' m a p with
  | zero => simp [mallocLoop] at h
  | succ fuel ih =>
    obtain ⟨d, rfl⟩ := Nat.exists_eq_add_of_le hf
    rw [Nat.add_right_comm]
    rcases Nat.lt_or_ge (m.size p) n with hlt | hge
    · by_cases hp : p = m.freep
      · rw [mallocLoop_freep hlt hp] at h ⊢
        obtain ⟨x, hm, hx⟩ := bind_eq_some_iff.1 h
        refine bind_eq_some_iff.2 ⟨x, morecore_mono hm (le_add_right _ _), ?_⟩
        split_ifs at hx ⊢
        · exact hx
        · exact ih hx (le_add_right _ _)
      · rw [mallocLoop_next hlt hp] at h ⊢
        exact ih h (le_add_right _ _)
    · rw [mallocLoop_fits hge] at h ⊢
      exact h

end

/-! ### Runs -/

variable {s s' : State} {a : Act} {as : List Act}

theorem Ok.perm (h : Ok base m xs live) {live' : List (ℕ × ℕ)} (hp : live.Perm live') : Ok base m xs live' :=
  { h with
    tiles := h.tiles.perm (hp.append_left _)
    hdr := fun b hb => h.hdr b (hp.mem_iff.2 hb)
    sum := (total_perm (hp.append_left _)).symm.trans h.sum }

/-- No `malloc` yet, or the heap is as it should be. -/
def Good (base : ℕ) (s : State) : Prop :=
  (s.live = [] ∧ s.heap.freep = 0 ∧ s.heap.regions = [] ∧ 0 < base ∧ base + UNIT ≤ s.heap.top) ∨
    ∃ xs, Ok base s.heap xs s.live

/-- The free list of `base` alone. -/
theorem Ok.first (h1 : m.regions = []) (h2 : 0 < base) (h3 : base + UNIT ≤ m.top) :
    Ok base { (m.setPtr base base).setSize base 0 with freep := base } [] [] := by
  refine ⟨⟨update_self .., trivial⟩, update_self .., List.pairwise_singleton _ _, by simp,
    Tiles.nil, by simp, ?_, h2, h3, .inl h1⟩
  exact (congrArg total h1).symm

/-- What `malloc` works on: the free list of `base` alone at first. -/
theorem Good.start (h : Good base s) : ∃ m xs, Ok base m xs s.live ∧
    ∀ sbrk fuel n, s.heap.malloc base sbrk fuel n = mallocLoop sbrk (units n) fuel m m.freep (m.ptr m.freep) := by
  rcases h with ⟨hl, h0, h1, h2, h3⟩ | ⟨xs, hok⟩
  · refine ⟨_, [], hl ▸ Ok.first h1 h2 h3, fun sbrk fuel n => ?_⟩
    rw [Heap.malloc, if_pos h0]
  · refine ⟨s.heap, xs, hok, fun sbrk fuel n => ?_⟩
    rw [Heap.malloc, if_neg hok.freep_ne]

theorem units_pos (n : ℕ) : 0 < units n := succ_pos _

theorem Good.malloc (h : Good base s) {sbrk : Sbrk} (hs : sbrk.Fresh) (n : ℕ) :
    ∃ fuel m r, s.heap.malloc base sbrk fuel n = some (m, r) ∧
      Good base ⟨m, if r = 0 then s.live else (r - UNIT, m.size (r - UNIT)) :: s.live⟩ := by
  obtain ⟨m, xs, hok, he⟩ := h.start
  obtain ⟨fuel, m', r, xs', hr, hres⟩ := hok.malloc_ends hs (units_pos n)
  refine ⟨fuel, m', r, (he sbrk fuel n).trans hr, .inr ⟨xs', ?_⟩⟩
  rcases hres with ⟨rfl, hok'⟩ | ⟨q, rfl, hsize, hok'⟩
  · exact hok'
  · have hne : q + UNIT ≠ 0 := by
      have := unit_pos
      omega
    rw [if_neg hne, Nat.add_sub_cancel, hsize]
    exact hok'

theorem Good.free (h : Good base s) {b : ℕ × ℕ} (hb : b ∈ s.live) :
    ∃ fuel m, s.heap.free fuel (b.1 + UNIT) = some m ∧ Good base ⟨m, s.live.erase b⟩ := by
  rcases h with ⟨hl, -⟩ | ⟨xs, hok⟩
  · simp [hl] at hb
  · obtain ⟨m', xs', hfree, hok', -⟩ := (hok.perm (List.perm_cons_erase hb)).free le_rfl
    exact ⟨_, m', hfree, .inr ⟨xs', hok'⟩⟩

/-- The program writes to its blocks: no header in use is among them. -/
theorem Ok.store (h : Ok base m xs live) {ptr size : ℕ → ℕ}
    (hw : ∀ a, (∀ b ∈ live, ¬ Overlaps a b) → ptr a = m.ptr a ∧ size a = m.size a) :
    Ok base { m with ptr := ptr, size := size } xs live := by
  have hfree : ∀ x ∈ base :: xs, ptr x = m.ptr x ∧ size x = m.size x := by
    intro x hx
    refine hw x fun b hb hov => ?_
    obtain ⟨h1, h2⟩ := hov
    rcases mem_cons.1 hx with rfl | hx
    · have := h.tiles.lo_le b (by simp [hb])
      omega
    · rcases (pairwise_append.1 h.tiles.apart).2.2 _ (mem_blocks hx) b hb with hl | hl
      · dsimp only at hl
        omega
      · dsimp only at hl
        omega
  have hlive : ∀ c ∈ live, size c.1 = m.size c.1 := by
    intro c hc
    refine (hw c.1 fun b hb hov => ?_).2
    obtain ⟨h1, h2⟩ := hov
    by_cases hbc : b = c
    · subst hbc
      omega
    · have hap := (pairwise_append.1 h.tiles.apart).2.1
      rcases hap.forall hb hc hbc with hl | hl <;> omega
  have hblocks : Heap.blocks { m with ptr := ptr, size := size } xs = m.blocks xs :=
    blocks_congr fun x hx => (hfree x (mem_cons_of_mem _ hx)).2
  refine ⟨h.links.congr fun x hx => (hfree x hx).1, (hfree base (by simp)).2.trans h.base_size, ?_, h.freep, ?_,
    fun b hb => (hlive b hb).trans (h.hdr b hb), ?_, h.base_pos, h.base_le, h.kern⟩
  · apply h.sorted.imp_of_mem
    intro a b ha _ hab
    exact (congrArg (fun k => a + UNIT * k < b) (hfree a ha).2).mpr hab
  · rw [hblocks]
    exact h.tiles
  · rw [hblocks]
    exact h.sum

theorem Good.step (h : Good base s) (hs : Step base s a s') : Good base s' := by
  cases hs with
  | @malloc n fuel r sbrk m hfresh hn hm =>
    obtain ⟨fuel', m', r', hm', hgood⟩ := h.malloc hfresh n
    -- the result does not depend on the fuel
    obtain ⟨m₀, xs, -, he⟩ := h.start
    rw [he] at hm hm'
    have h1 := mallocLoop_mono hm (le_max_left fuel fuel')
    have h2 := mallocLoop_mono hm' (le_max_right fuel fuel')
    obtain ⟨rfl, rfl⟩ : m = m' ∧ r = r' := by simpa using h1.symm.trans h2
    exact hgood
  | @free fuel b m hb hm =>
    obtain ⟨fuel', m', hm', hgood⟩ := h.free hb
    have h1 := free_mono hm (le_max_left fuel fuel')
    have h2 := free_mono hm' (le_max_right fuel fuel')
    obtain rfl : m = m' := by simpa using h1.symm.trans h2
    exact hgood
  | store hw =>
    rcases h with ⟨hl, h0, h1, h2, h3⟩ | ⟨xs, hok⟩
    · exact .inl ⟨hl, h0, h1, h2, h3⟩
    · exact .inr ⟨xs, hok.store hw⟩

theorem Run.good (h : Run (system base) as s) : Good base s := by
  apply h.invariant (I := fun _ s => Good base s)
  · intro s h0
    exact .inl h0
  · intro as s a s' _ hi hs
    exact hi.step hs

/-- The free list from `freep` is the list in the order of addresses, read from another place. -/
theorem Ok.free_list (h : Ok base m xs live) : ∃ lo hi, base :: xs = lo ++ hi ∧ m.FreeList (hi ++ lo) := by
  obtain ⟨us, ws, hN⟩ := append_of_mem h.freep
  have hl := h.links
  rw [hN] at hl
  exact ⟨us, m.freep :: ws, hN, rfl, hl.rotate (by rw [← hN]; rfl)⟩

theorem total_regions_pos (h : Ok base m xs live) (hb : b ∈ m.blocks xs ++ live) : m.regions ≠ [] := by
  intro hnil
  obtain ⟨us, ws, hl⟩ := append_of_mem hb
  have hsum := h.sum
  have hpos := h.tiles.pos b hb
  rw [hl, hnil, total_append, total_cons, total_nil] at hsum
  omega

/-- The invariant of the user heap, in every run of a program that frees only what it has. Before the first
`malloc` there is no free list. All loops end. -/
theorem user_heap {base : ℕ} {as : List Act} {s : State} (h : Run (system base) as s) :
    (s.heap.freep = 0 ∧ s.live = [] ∧ s.heap.regions = [] ∨
      ∃ lo hi, s.heap.FreeList (hi ++ lo) ∧ (lo ++ hi).Pairwise s.heap.Below ∧
        s.live.Pairwise (Apart UNIT) ∧ (∀ b ∈ s.live, ∀ x ∈ lo ++ hi, Apart UNIT b (x, s.heap.size x)) ∧
        total (s.heap.blocks (lo ++ hi)) + total s.live = total s.heap.regions ∧
        ∀ b ∈ s.heap.blocks (lo ++ hi) ++ s.live, 0 < b.2 → b.1 + UNIT * b.2 < KERNBASE) ∧
      (∀ n sbrk, Small n → sbrk.Fresh → ∃ fuel r, s.heap.malloc base sbrk fuel n = some r) ∧
      ∀ b ∈ s.live, ∃ fuel m, s.heap.free fuel (b.1 + UNIT) = some m := by
  have hg := Run.good h
  refine ⟨?_, fun n sbrk _ hs => ?_, fun b hb => ?_⟩
  · rcases hg with ⟨h1, h2, h3, -⟩ | ⟨xs, hok⟩
    · exact .inl ⟨h2, h1, h3⟩
    · obtain ⟨lo, hi, hN, hfl⟩ := hok.free_list
      obtain ⟨hap1, hap2, hap3⟩ := List.pairwise_append.1 hok.tiles.apart
      have hbl : s.heap.blocks (base :: xs) = (base, 0) :: s.heap.blocks xs := by
        rw [Heap.blocks, List.map_cons, hok.base_size]
        rfl
      refine .inr ⟨lo, hi, hfl, hN ▸ hok.sorted, hap2, fun b hb x hx => ?_, ?_, fun b hb hpos => ?_⟩
      · rw [← hN] at hx
        rcases List.mem_cons.1 hx with rfl | hx
        · right
          have := hok.tiles.lo_le b (by simp [hb])
          rw [hok.base_size]
          omega
        · exact (hap3 _ (mem_blocks hx) b hb).symm
      · rw [← hok.sum, ← hN, hbl, total_cons, total_append, zero_add]
      · rw [← hN, hbl, List.cons_append] at hb
        rcases List.mem_cons.1 hb with rfl | hb
        · simp at hpos
        · have hk := hok.kern.resolve_left (total_regions_pos hok hb)
          exact lt_of_le_of_lt (hok.tiles.le_hi b hb) hk
  · obtain ⟨fuel, m, r, hr, -⟩ := hg.malloc hs n
    exact ⟨fuel, _, hr⟩
  · obtain ⟨fuel, m, hm, -⟩ := hg.free hb
    exact ⟨fuel, m, hm⟩

/-- A program with `base` at 4096 and its break at 16384 that gets a region there and takes one block of 100
bytes from it. -/
theorem user_heap_malloc : ∃ as s, Run (system 4096) as s ∧ s.live = [(49040, 14)] ∧
    ∃ lo hi, s.heap.FreeList (hi ++ lo) ∧ total (s.heap.blocks (lo ++ hi)) + total s.live = 4096 := by
  have h0 : Run (system 4096) [] ⟨⟨fun _ => 0, fun _ => 0, 0, 16384, []⟩, []⟩ :=
    .start ⟨rfl, rfl, rfl, by decide, by decide⟩
  let sbrk : Sbrk := fun top n => if top ≤ 16384 ∧ 16384 + n < KERNBASE then some 16384 else none
  have hs : sbrk.Fresh := by
    intro top n p hp
    obtain ⟨hc, he⟩ := Option.ite_none_right_eq_some.1 hp
    obtain rfl : 16384 = p := Option.some.inj he
    exact hc
  have hr : (Heap.malloc 4096 sbrk 5 ⟨fun _ => 0, fun _ => 0, 0, 16384, []⟩ 100).map
      (fun r => (r.2, r.1.size (r.2 - UNIT), r.1.regions)) = some (49048, 14, [(16384, 4096)]) := by
    decide +kernel
  obtain ⟨⟨m, r⟩, hm, hmr⟩ := Option.map_eq_some_iff.1 hr
  obtain ⟨rfl, hsize, hreg⟩ : r = 49048 ∧ m.size (r - UNIT) = 14 ∧ m.regions = [(16384, 4096)] := by
    simpa using hmr
  have h1 := h0.snoc (Step.malloc hs (by unfold Small; decide) hm)
  rw [if_neg (by decide), hsize] at h1
  refine ⟨_, _, h1, rfl, ?_⟩
  rcases (user_heap h1).1 with ⟨-, hl, -⟩ | ⟨lo, hi, hfl, -, -, -, hsum, -⟩
  · simp at hl
  · refine ⟨lo, hi, hfl, hsum.trans ?_⟩
    rw [hreg]
    rfl

end Xv6.Umalloc
