import Xv6.Proofs.Volume

/-! `balloc`, `bmap`, `bfree` and `itrunc`: blocks go to places and come back. -/

namespace Xv6.Sys

open Prog Bytes Owner Function Nat

variable {s s' : Fs} {n m k a b c sz bi r m' j : ℕ} {data : Sector} {Q : ℕ → Fs → Prop} {F G : Fs → Prop}
  {N : String → Fs → Prop} {ip : Inode} {block : ℕ → Sector}

/-! A free block is handed out. -/

theorem freeBit_lt (h : freeBit data sz b n bi = some r) : r < bi + n := by
  induction n generalizing bi with
  | zero => simp [freeBit] at h
  | succ n ih =>
    unfold freeBit at h
    split_ifs at h with h1 h2
    · have := ih h
      omega
    · obtain rfl : bi = r := by simpa using h
      omega

theorem freeBit_eq_none (h : freeBit data sz b n bi = none) (h1 : bi ≤ r)
    (h2 : r < bi + n) (h3 : b + r < sz) : bitSet data r = true := by
  induction n generalizing bi with
  | zero => omega
  | succ n ih =>
    unfold freeBit at h
    rw [if_pos (by omega)] at h
    split_ifs at h with hs
    rcases eq_or_lt_of_le h1 with rfl | hlt
    · exact hs
    · exact ih h hlt (by omega)

/-- The state after `balloc` has handed out block `a`. -/
def take (s : Fs) (a : ℕ) : Fs :=
  { s with
    block := update (update s.block (BBLOCK s.sb a)
      (setBit (s.block (BBLOCK s.sb a)) (a % BPB))) a (fun _ => 0)
    log := s.log ++ [BBLOCK s.sb a, a] }

theorem sat_ballocLoop (hQ : ∀ a, a < s.sb.size → bit s.sb s.block a = false → Q a (take s a))
    (hN : roomOf s = 0 → N "balloc: out of blocks" s) :
    ∀ n b, b % BPB = 0 → s.sb.size ≤ b + BPB * n →
      (∀ c < b, c < s.sb.size → bit s.sb s.block c = true) → Sat (ballocLoop n b) s Q F N := by
  -- all the bits before `b` are set
  intro n
  induction n with
  | zero =>
    intro b _ hsz hall
    exact hN (room_eq_zero fun c hc => hall c (by omega) hc)
  | succ n ih =>
    intro b hb hsz hall
    simp only [ballocLoop, sat_bind_eq, sat_get_eq]
    split_ifs with hlt
    · simp only [bread, sat_bind_eq, sat_get_eq, sat_pure_eq]
      have hblk : ∀ r < BPB, BBLOCK s.sb (b + r) = BBLOCK s.sb b ∧ (b + r) % BPB = r := by
        intro r hr
        unfold BBLOCK
        simp only [show BPB = 4096 from rfl] at *
        omega
      cases hf : freeBit (s.block (BBLOCK s.sb b)) s.sb.size b BPB 0 with
      | some r =>
        obtain ⟨h1, h2⟩ := freeBit_eq_some hf
        have h3 := freeBit_lt hf
        obtain ⟨h4, h5⟩ := hblk r (by omega)
        have hq := hQ (b + r) h1 (by rw [bit, h4, h5]; exact h2)
        rw [take, h4, h5] at hq
        simpa [logWrite, bzero] using hq
      | none =>
        refine ih (b + BPB) (by rw [add_mod_right]; exact hb) (by rw [mul_succ] at hsz; omega) ?_
        intro c hc hcs
        by_cases hcb : c < b
        · exact hall c hcb hcs
        · obtain ⟨h4, h5⟩ := hblk (c - b) (by omega)
          rw [Nat.add_sub_cancel' (by omega)] at h4 h5
          rw [bit, h4, h5]
          exact freeBit_eq_none hf (by omega) (by omega) (by omega)
    · exact hN (room_eq_zero fun c hc => hall c (by omega) hc)

theorem sat_balloc (hQ : ∀ a, a < s.sb.size → bit s.sb s.block a = false → Q a (take s a))
    (hN : roomOf s = 0 → N "balloc: out of blocks" s) : Sat balloc s Q F N := by
  simp only [balloc, sat_bind_eq, sat_get_eq]
  refine sat_ballocLoop hQ hN _ 0 (zero_mod _) ?_ (fun c hc => absurd hc (not_lt_zero c))
  have := lt_mul_div_succ s.sb.size (show 0 < BPB by decide)
  omega

/-! Blocks other than the block handed out and its bitmap block are what they were. -/

theorem take_block (ha : c ≠ a) (hb : c ≠ BBLOCK s.sb a) : (take s a).block c = s.block c := by
  simp [take, ha, hb]

theorem take_low (ha : s.sb.data ≤ a) (hc : c < s.sb.bmapstart) : (take s a).block c = s.block c := by
  have h1 : s.sb.bmapstart ≤ BBLOCK s.sb a := bblock_ge a
  have h2 := bmapstart_lt_data s.sb
  exact take_block (by omega) (by omega)

theorem take_data (ha : a < s.sb.size) (hc : s.sb.data ≤ c) (hne : c ≠ a) : (take s a).block c = s.block c := by
  have h1 := bblock_lt ha
  exact take_block hne (by omega)

theorem bit_take (hge : s.sb.data ≤ a) (ha : a < s.sb.size) (hc : c < s.sb.size) :
    bit s.sb (take s a).block c = update (bit s.sb s.block) a true c := by
  have hne : BBLOCK s.sb c ≠ a := by
    have := bblock_lt hc
    omega
  unfold bit take
  simp only [update_of_ne hne]
  by_cases hbb : BBLOCK s.sb c = BBLOCK s.sb a
  · rw [hbb, update_self, bitSet_setBit]
    by_cases hca : c = a
    · simp [hca]
    · have hmod : a % BPB ≠ c % BPB := by
        intro he
        unfold BBLOCK at hbb
        have h1 := div_add_mod c BPB
        have h2 := div_add_mod a BPB
        rw [show c / BPB = a / BPB by omega, ← he] at h1
        omega
      rw [update_of_ne hca, decide_eq_false hmod, Bool.false_or, ← hbb]
  · have hca : c ≠ a := by
      rintro rfl
      exact hbb rfl
    rw [update_of_ne hbb, update_of_ne hca]

/-! A block handed out goes to a place of the inode in memory. -/

theorem Ready.place_self (h : Ready s) (hm : m ≤ MAXFILE) :
    place s.sb s.block (tab s) (s.ip.inum, m) = s.ip.bno s.block m := by
  rw [place_eq h.has (by rw [tab_self]; exact h.type) hm, tab_self]

theorem Ready.range (h : Ready s) (hm : m ≤ MAXFILE) (h0 : s.ip.bno s.block m ≠ 0) :
    s.sb.data ≤ s.ip.bno s.block m ∧ s.ip.bno s.block m < s.sb.size ∧
      bit s.sb s.block (s.ip.bno s.block m) = true := by
  rw [← h.place_self hm] at h0 ⊢
  exact h.own.exact.range _ h0

theorem Ready.inj (h : Ready s) (hm : m ≤ MAXFILE) (hm' : m' ≤ MAXFILE)
    (he : s.ip.bno s.block m = s.ip.bno s.block m') (h0 : s.ip.bno s.block m ≠ 0) : m = m' := by
  rw [← h.place_self hm] at he h0
  rw [← h.place_self hm'] at he
  exact (Prod.mk.inj (h.own.exact.inj _ _ he h0)).2

/-- Another inode has none of the blocks of the one in memory. -/
theorem Ready.ne_other (h : Ready s) (hn : s.sb.has n) (hne : n ≠ s.ip.inum)
    (ht : (getInode s.sb s.block n).type ≠ 0) (hm : m ≤ MAXFILE) (hm' : m' ≤ MAXFILE)
    (h0 : (getInode s.sb s.block n).bno s.block m ≠ 0) :
    (getInode s.sb s.block n).bno s.block m ≠ s.ip.bno s.block m' := by
  intro he
  rw [← tab_ne hne] at he h0 ht
  rw [← h.place_self hm', ← place_eq hn ht hm] at he
  rw [← place_eq hn ht hm] at h0
  exact hne (Prod.mk.inj (h.own.exact.inj _ _ he h0)).1

/-- The blocks of other inodes, when only blocks of the one in memory and `a` change. -/
theorem Ready.touch (h : Ready s) (hsb : s'.sb = s.sb) (hin : s'.ip.inum = s.ip.inum)
    (hlow : ∀ c < s.sb.bmapstart, s'.block c = s.block c)
    (hdata : ∀ c, s.sb.data ≤ c → bit s.sb s.block c = true →
      (∀ m ≤ MAXFILE, c ≠ s.ip.bno s.block m) → s'.block c = s.block c) : Touch s s' where
  sb := hsb
  inum := hin
  tab n hn _ := getInode_same h.own.layout hn hlow
  data n hn hne ht m hm h0 := by
    have hr := h.own.range hn (by rwa [tab_ne hne]) hm (by rwa [tab_ne hne])
    rw [tab_ne hne] at hr
    exact hdata _ hr.1 hr.2.2 fun m' hm' => h.ne_other hn hne ht hm hm' h0

/-- The places of the other inodes are what they were. -/
theorem Touch.place (h : Touch s s') {q : ℕ × ℕ} (hq : q.1 ≠ s.ip.inum) :
    Sys.place s.sb s'.block (Sys.tab s') q = Sys.place s.sb s.block (Sys.tab s) q := by
  have ht : s.sb.has q.1 → Sys.tab s' q.1 = Sys.tab s q.1 := by
    intro hn
    rw [tab_ne hq, tab_ne (by rwa [h.inum]), h.sb, h.tab _ hn hq]
  refine place_congr (fun hn => by rw [ht hn]) fun hn hty _ => ?_
  rw [ht hn]
  rw [tab_ne hq] at hty ⊢
  exact h.bno hn hq hty

theorem Ready.install (h : Ready s) (ha : a < s.sb.size) (hfree : bit s.sb s.block a = false)
    (hm : m ≤ MAXFILE) (h0 : s.ip.bno s.block m = 0) (hsb : s'.sb = s.sb)
    (hip : s'.ip = { s.ip with addrs := s'.ip.addrs }) (hfits : Fits s'.ip)
    (hlow : ∀ c < s.sb.bmapstart, s'.block c = s.block c)
    (hbit : ∀ c < s.sb.size, bit s.sb s'.block c = update (bit s.sb s.block) a true c)
    (hdata : ∀ c, s.sb.data ≤ c → c ≠ a → c ≠ s.ip.addrs NDIRECT → s'.block c = s.block c)
    (hbno : ∀ k ≤ MAXFILE, s'.ip.bno s'.block k = if k = m then a else s.ip.bno s.block k) :
    Ready s' ∧ Touch s s' ∧ roomOf s = roomOf s' + 1 := by
  have hge := h.own.free_ge ha hfree
  have hin : s'.ip.inum = s.ip.inum := by rw [hip]
  have hty : s'.ip.type = s.ip.type := by rw [hip]
  have ht : Touch s s' := by
    refine h.touch hsb hin hlow fun c hc hb hne => hdata c hc ?_ ?_
    · rintro rfl
      rw [hfree] at hb
      cases hb
    · rw [show s.ip.addrs NDIRECT = s.ip.bno s.block MAXFILE from bno_ind.symm]
      exact hne MAXFILE le_rfl
  have hex := h.own.exact.take (i := (s.ip.inum, m)) hfree hge ha (by rw [h.place_self hm, h0])
  have hplace : ∀ q, place s.sb s'.block (tab s') q =
      update (place s.sb s.block (tab s)) (s.ip.inum, m) a q := by
    rintro ⟨n, k⟩
    by_cases hn : n = s.ip.inum
    · subst hn
      by_cases hk : k ≤ MAXFILE
      · have htab : tab s' s.ip.inum = s'.ip := by rw [← hin, tab_self]
        rw [place_eq h.has (by rw [htab, hty]; exact h.type) hk, htab, hbno k hk]
        by_cases hkm : k = m
        · rw [if_pos hkm, hkm, update_self]
        · rw [if_neg hkm, update_of_ne (by simp [hkm]), h.place_self hk]
      · rw [update_of_ne (by simp; omega)]
        simp [place, hk]
    · rw [update_of_ne (by simp [hn])]
      exact ht.place (q := (n, k)) hn
  refine ⟨⟨?_, by rw [hsb, hin]; exact h.has, by rw [hty]; exact h.type, hfits⟩, ht, ?_⟩
  · rw [hsb]
    refine ⟨h.own.layout, hex.congr (fun c _ hc => hbit c hc) hplace, fun c hc hcs => ?_⟩
    rw [hbit c hcs, update_of_ne (by omega)]
    exact h.own.low c hc hcs
  · unfold roomOf
    rw [hsb, room_congr hbit]
    exact room_take hfree ha

theorem Fits.withAddr (h : Fits ip) (hk : k ≤ NDIRECT) (ha : a < 2 ^ 32) :
    Fits { ip with addrs := update ip.addrs k a } where
  type := h.type
  major := h.major
  minor := h.minor
  nlink := h.nlink
  size := h.size
  addrs j := by
    by_cases hj : j = k
    · simpa [hj] using ha
    · simpa [hj] using h.addrs j
  rest j hj := by
    have hne : j ≠ k := by omega
    simpa [hne] using h.rest j hj

/-- The position of `ip->addrs[k]`. -/
def position (k : ℕ) : ℕ := if k = NDIRECT then MAXFILE else k

theorem bno_position (hk : k ≤ NDIRECT) : ip.bno block (position k) = ip.addrs k := by
  unfold position
  split_ifs with h
  · rw [h, bno_ind]
  · exact bno_direct (by omega)

theorem position_le (hk : k ≤ NDIRECT) : position k ≤ MAXFILE := by
  have := NDIRECT_lt_MAXFILE
  unfold position
  split_ifs <;> omega

/-- A block handed out becomes `ip->addrs[k]`. A new indirect block is zeroed, so the positions behind
it stay empty. -/
theorem Ready.setAddr (h : Ready s) (ha : a < s.sb.size) (hfree : bit s.sb s.block a = false)
    (hk : k ≤ NDIRECT) (h0 : s.ip.addrs k = 0) :
    let s' := (take s a).withAddr k a
    Ready s' ∧ Touch s s' ∧ roomOf s = roomOf s' + 1 ∧
      ∀ m ≤ MAXFILE, s'.ip.bno s'.block m = if m = position k then a else s.ip.bno s.block m := by
  intro s'
  have hge := h.own.free_ge ha hfree
  have ha0 : a ≠ 0 := by
    have := h.own.exact.pos
    omega
  have hind : s.ip.addrs NDIRECT ≠ 0 → s.sb.data ≤ s.ip.addrs NDIRECT ∧ s.ip.addrs NDIRECT ≠ a := by
    intro hi
    have hr := h.range (m := MAXFILE) le_rfl (by rwa [bno_ind])
    rw [bno_ind] at hr
    refine ⟨hr.1, ?_⟩
    rintro hia
    rw [hia, hfree] at hr
    exact absurd hr.2.2 (by simp)
  have hbno : ∀ m ≤ MAXFILE, s'.ip.bno s'.block m = if m = position k then a else s.ip.bno s.block m := by
    intro m hm
    have hne : ∀ j, j ≠ k → s'.ip.addrs j = s.ip.addrs j := fun j hj => by
      simp [s', Fs.withAddr, take, hj]
    have hself : s'.ip.addrs k = a := by simp [s', Fs.withAddr]
    split_ifs with hmk
    · rw [hmk, bno_position hk, hself]
    · unfold position at hmk
      by_cases hd : m < NDIRECT
      · rw [bno_direct hd, bno_direct hd]
        refine hne m ?_
        rintro rfl
        rw [if_neg (by omega)] at hmk
        exact hmk rfl
      · by_cases hkd : k = NDIRECT
        · -- the new indirect block
          subst hkd
          rw [if_pos rfl] at hmk
          rw [bno_no_ind (by omega) h0, bno_indirect (by omega) (by omega) (by rw [hself]; exact ha0), hself,
            show s'.block a = fun _ => 0 by simp [s', Fs.withAddr, take]]
          exact getWord_zero _
        · by_cases hmM : m = MAXFILE
          · rw [hmM, bno_ind, bno_ind, hne _ (Ne.symm hkd)]
          · by_cases hi : s.ip.addrs NDIRECT = 0
            · rw [bno_no_ind (by omega) hi, bno_no_ind (by omega) (by rw [hne _ (Ne.symm hkd), hi])]
            · obtain ⟨h1, h2⟩ := hind hi
              rw [bno_indirect (by omega) (by omega) hi,
                bno_indirect (by omega) (by omega) (by rwa [hne _ (Ne.symm hkd)]), hne _ (Ne.symm hkd),
                show s'.block = (take s a).block from rfl, take_data ha h1 h2]
  obtain ⟨h1, h2, h3⟩ : Ready s' ∧ Touch s s' ∧ roomOf s = roomOf s' + 1 := h.install ha hfree (position_le hk) (by rw [bno_position hk, h0]) rfl rfl
    (h.fits.withAddr hk (by have := h.own.layout.size; omega)) (fun c hc => take_low hge hc)
    (fun c hc => bit_take hge ha hc) (fun c hc hca _ => take_data ha hc hca) hbno
  exact ⟨h1, h2, h3, hbno⟩

/-- A block handed out becomes an entry of the indirect block. -/
theorem Ready.setEntry (h : Ready s) (ha : a < s.sb.size) (hfree : bit s.sb s.block a = false)
    (hi : s.ip.addrs NDIRECT ≠ 0) (hd : NDIRECT ≤ m) (hm : m < MAXFILE) (h0 : s.ip.bno s.block m = 0) :
    let s' := (take s a).logged (s.ip.addrs NDIRECT) (putWord (s.block (s.ip.addrs NDIRECT)) (m - NDIRECT) a)
    Ready s' ∧ Touch s s' ∧ roomOf s = roomOf s' + 1 ∧
      ∀ k ≤ MAXFILE, s'.ip.bno s'.block k = if k = m then a else s.ip.bno s.block k := by
  intro s'
  have hge := h.own.free_ge ha hfree
  have hr := h.range (m := MAXFILE) le_rfl (by rwa [bno_ind])
  rw [bno_ind] at hr
  have hlow : s.sb.bmapstart < s.ip.addrs NDIRECT := lt_of_lt_of_le (bmapstart_lt_data s.sb) hr.1
  have hblk : ∀ c, c ≠ s.ip.addrs NDIRECT → s'.block c = (take s a).block c := fun c hc => by
    simp [s', Fs.logged, hc]
  have hbno : ∀ k ≤ MAXFILE, s'.ip.bno s'.block k = if k = m then a else s.ip.bno s.block k := by
    intro k hk
    have hip : s'.ip = s.ip := rfl
    rw [hip]
    by_cases hkd : k < NDIRECT
    · rw [if_neg (by omega), bno_direct hkd, bno_direct hkd]
    · by_cases hkM : k = MAXFILE
      · rw [if_neg (by omega), hkM, bno_ind, bno_ind]
      · rw [bno_indirect (by omega) (by omega) hi, bno_indirect (by omega) (by omega) hi,
          show s'.block (s.ip.addrs NDIRECT) = putWord (s.block (s.ip.addrs NDIRECT)) (m - NDIRECT) a by
            simp [s', Fs.logged], getWord_putWord,
          mod_eq_of_lt (show a < 2 ^ 32 by have := h.own.layout.size; omega)]
        exact if_congr (by omega) rfl rfl
  obtain ⟨h1, h2, h3⟩ : Ready s' ∧ Touch s s' ∧ roomOf s = roomOf s' + 1 := h.install ha hfree hm.le h0 rfl rfl h.fits
    (fun c hc => by rw [hblk c (by omega), take_low hge hc])
    (fun c hc => by
      rw [← bit_take hge ha hc]
      refine bit_congr hc fun x _ hx => hblk x (by omega))
    (fun c hc hca hci => by rw [hblk c hci, take_data ha hc hca]) hbno
  exact ⟨h1, h2, h3, hbno⟩

/-- What `bmap` does for block `m` of the inode. -/
structure Mapped (s : Fs) (m a : ℕ) (s' : Fs) : Prop where
  ready : Ready s'
  touch : Touch s s'
  ip : s'.ip = { s.ip with addrs := s'.ip.addrs }
  at_self : s'.ip.bno s'.block m = a
  ne : a ≠ 0
  same : s.ip.bno s.block m ≠ 0 → s' = s
  other : ∀ k < MAXFILE, k ≠ m → s'.ip.bno s'.block k = s.ip.bno s.block k
  keep : ∀ k < MAXFILE, s.ip.bno s.block k ≠ 0 →
    s'.block (s.ip.bno s.block k) = s.block (s.ip.bno s.block k)
  low : ∀ c < s.sb.bmapstart, s'.block c = s.block c
  room : roomOf s ≤ roomOf s' + 2

theorem Mapped.refl (h : Ready s) (h0 : s.ip.bno s.block m ≠ 0) : Mapped s m (s.ip.bno s.block m) s :=
  ⟨h, .refl, rfl, rfl, h0, fun _ => rfl, fun _ _ _ => rfl, fun _ _ _ => rfl, fun _ _ => rfl, le_add_right _ _⟩

/-- An owned block is not the one handed out. -/
theorem Ready.keep_take (h : Ready s) (ha : a < s.sb.size) (hfree : bit s.sb s.block a = false) (hm : m ≤ MAXFILE)
    (h0 : s.ip.bno s.block m ≠ 0) : (take s a).block (s.ip.bno s.block m) = s.block (s.ip.bno s.block m) := by
  obtain ⟨h1, -, h3⟩ := h.range hm h0
  refine take_data ha h1 ?_
  rintro hma
  rw [hma, hfree] at h3
  cases h3

theorem sat_bmapDirect (h : Ready s)
    (hm : m < NDIRECT) (hQ : ∀ a s', Mapped s m a s' → roomOf s ≤ roomOf s' + 1 → Q a s')
    (hN : roomOf s < 1 → ∀ s', N "balloc: out of blocks" s') : Sat (bmapDirect m) s Q F N := by
  have hM : m < MAXFILE := hm.trans NDIRECT_lt_MAXFILE
  have hb : s.ip.bno s.block m = s.ip.addrs m := bno_direct hm
  simp only [bmapDirect, sat_bind_eq, sat_get_eq]
  split_ifs with h0
  · rw [sat_bind_eq]
    refine sat_balloc (fun a ha hfree => ?_) (fun hr => hN (by omega) _)
    rw [sat_bind_eq, sat_setAddr, sat_pure_eq]
    obtain ⟨h1, h2, h3, h4⟩ := h.setAddr ha hfree hm.le h0
    have hp : position m = m := if_neg hm.ne
    have hge := h.own.free_ge ha hfree
    rw [hp] at h4
    refine hQ a _ ⟨h1, h2, rfl, by rw [h4 m hM.le, if_pos rfl], ?_, fun hn => absurd (hb.trans h0) hn,
      fun k hk hkm => by rw [h4 k hk.le, if_neg hkm], fun k hk hk0 => h.keep_take ha hfree hk.le hk0,
      fun c hc => take_low hge hc, by omega⟩ h3.le
    have := h.own.exact.pos
    omega
  · rw [← hb] at h0 ⊢
    exact hQ _ _ (Mapped.refl h h0) (le_succ _)

theorem sat_bmapIndirect (h : Ready s) (hd : NDIRECT ≤ m) (hm : m < MAXFILE) (hi : s.ip.addrs NDIRECT ≠ 0)
    (hQ : ∀ a s', Mapped s m a s' → roomOf s ≤ roomOf s' + 1 → Q a s')
    (hN : roomOf s < 1 → ∀ s', N "balloc: out of blocks" s') :
    Sat (bmapIndirect (s.ip.addrs NDIRECT) (m - NDIRECT)) s Q F N := by
  have hb : s.ip.bno s.block m = getWord (s.block (s.ip.addrs NDIRECT)) (m - NDIRECT) := bno_indirect hd hm hi
  simp only [bmapIndirect, sat_bind_eq, bread, sat_get_eq, sat_pure_eq]
  split_ifs with h0
  · rw [← hb] at h0
    rw [sat_bind_eq]
    refine sat_balloc (fun a ha hfree => ?_) (fun hr => hN (by omega) _)
    rw [sat_bind_eq, sat_logWrite, sat_pure_eq]
    obtain ⟨h1, h2, h3, h4⟩ := h.setEntry ha hfree hi hd hm h0
    have hge := h.own.free_ge ha hfree
    have hr := h.range (m := MAXFILE) le_rfl (by rwa [bno_ind])
    rw [bno_ind] at hr
    have hlow : s.sb.bmapstart < s.ip.addrs NDIRECT := lt_of_lt_of_le (bmapstart_lt_data s.sb) hr.1
    refine hQ a _ ⟨h1, h2, rfl, by rw [h4 m hm.le, if_pos rfl], ?_, fun hn => absurd h0 hn,
      fun k hk hkm => by rw [h4 k hk.le, if_neg hkm], fun k hk hk0 => ?_, fun c hc => ?_, by omega⟩ h3.le
    · have := h.own.exact.pos
      omega
    · have hne : s.ip.bno s.block k ≠ s.ip.addrs NDIRECT := by
        rw [show s.ip.addrs NDIRECT = s.ip.bno s.block MAXFILE from bno_ind.symm]
        exact fun he => hk.ne (h.inj hk.le le_rfl he hk0)
      rw [← h.keep_take ha hfree hk.le hk0]
      simp [Fs.logged, hne]
    · rw [← take_low hge hc]
      simp [Fs.logged, show c ≠ s.ip.addrs NDIRECT by omega]
  · rw [← hb] at h0 ⊢
    exact hQ _ _ (Mapped.refl h h0) (le_succ _)

theorem sat_bmap (h : Ready s) (hm : m < MAXFILE) (hQ : ∀ a s', Mapped s m a s' → Q a s')
    (hN : roomOf s < 2 → ∀ s', N "balloc: out of blocks" s') : Sat (bmap m) s Q F N := by
  unfold bmap
  split_ifs with hd hk
  · exact sat_bmapDirect h hd (fun a s' hs _ => hQ a s' hs) (fun hr => hN (by omega))
  · rw [sat_bind_eq]
    by_cases hi : s.ip.addrs NDIRECT = 0
    · -- a new indirect block, and then a new block in it
      simp only [bmapDirect, sat_bind_eq, sat_get_eq]
      rw [if_pos hi]
      simp only [sat_bind_eq]
      refine sat_balloc (fun b hb hfree => ?_) (fun hr => hN (by omega) _)
      rw [sat_setAddr, sat_pure_eq]
      obtain ⟨h1, h2, h3, h4⟩ := h.setAddr hb hfree le_rfl hi
      have hp : position NDIRECT = MAXFILE := if_pos rfl
      have hge := h.own.free_ge hb hfree
      have hb0 : b ≠ 0 := by
        have := h.own.exact.pos
        omega
      have hat : ((take s b).withAddr NDIRECT b).ip.addrs NDIRECT = b := by simp [Fs.withAddr]
      have hkeep : ∀ k < MAXFILE, ((take s b).withAddr NDIRECT b).ip.bno ((take s b).withAddr NDIRECT b).block k =
          s.ip.bno s.block k := fun k hk => by rw [h4 k hk.le, hp, if_neg hk.ne]
      have hrest := sat_bmapIndirect (Q := Q) (F := F) (N := N) (m := m) h1 (by omega) hm
        (by rw [hat]; exact hb0) ?_ (fun hr => hN (by omega))
      · rwa [hat] at hrest
      intro a s' hs hroom
      refine hQ a s' ⟨hs.ready, h2.trans hs.touch, hs.ip.trans rfl, hs.at_self, hs.ne, fun hn => ?_,
        fun k hk hkm => (hs.other k hk hkm).trans (hkeep k hk), fun k hk hk0 => ?_, fun c hc => ?_, by omega⟩
      · exact absurd (bno_no_ind (by omega) hi) hn
      · have := hs.keep k hk (by rwa [hkeep k hk])
        rw [hkeep k hk] at this
        exact this.trans (h.keep_take hb hfree hk.le hk0)
      · exact (hs.low c hc).trans (take_low hge hc)
    · simp only [bmapDirect, sat_bind_eq, sat_get_eq]
      rw [if_neg hi]
      exact sat_bmapIndirect h (by omega) hm hi (fun a s' hs _ => hQ a s' hs) (fun hr => hN (by omega))
  · simp only [MAXFILE] at hm
    omega

/-! Blocks are given back. -/

theorem testBit_clear (x : UInt8) (hj : j < 8) :
    (x &&& ~~~(UInt8.ofNat (1 <<< r))).toNat.testBit j = (!decide (r = j) && x.toNat.testBit j) := by
  have hofNat : (UInt8.ofNat (1 <<< r)).toBitVec = BitVec.ofNat 8 (1 <<< r) := rfl
  rw [← UInt8.toNat_toBitVec, ← UInt8.toNat_toBitVec, BitVec.testBit_toNat, BitVec.testBit_toNat,
    UInt8.toBitVec_and, UInt8.toBitVec_not, hofNat, BitVec.getLsbD_and, BitVec.getLsbD_not,
    BitVec.getLsbD_ofNat, one_shiftLeft, testBit_two_pow]
  simp [hj, Bool.and_comm]

theorem bitSet_clearBit (data : Sector) (i j : ℕ) :
    bitSet (clearBit data i) j = (!decide (i = j) && bitSet data j) := by
  by_cases hb : i / 8 = j / 8
  · have hij : (i % 8 = j % 8) ↔ i = j := by omega
    simp only [bitSet, clearBit, ← hb, update_self]
    rw [testBit_clear _ (mod_lt j (by omega))]
    simp only [hij]
  · have hne : i ≠ j := by
      rintro rfl
      exact hb rfl
    simp [bitSet, clearBit, update_of_ne (Ne.symm hb), hne]

/-- The state after `bfree` of block `b`. -/
def give (s : Fs) (b : ℕ) : Fs := s.logged (BBLOCK s.sb b) (clearBit (s.block (BBLOCK s.sb b)) (b % BPB))

theorem sat_bfree {Q : Unit → Fs → Prop}
    (hb : bit s.sb s.block b = true) (hQ : Q () (give s b)) : Sat (bfree b) s Q F N := by
  simp only [bfree, sat_bind_eq, sat_get_eq, bread, sat_pure_eq]
  exact sat_check (fun _ => hQ) (fun hn => absurd hb hn)

theorem give_block (hb : b < s.sb.size) (hc : c < s.sb.bmapstart ∨ s.sb.data ≤ c) :
    (give s b).block c = s.block c := by
  have h1 : s.sb.bmapstart ≤ BBLOCK s.sb b := bblock_ge b
  have h2 := bblock_lt hb
  simp [give, Fs.logged, show c ≠ BBLOCK s.sb b by omega]

theorem bit_give (c : ℕ) : bit s.sb (give s b).block c = update (bit s.sb s.block) b false c := by
  unfold bit give Fs.logged
  by_cases hbb : BBLOCK s.sb c = BBLOCK s.sb b
  · simp only [hbb, update_self]
    rw [bitSet_clearBit]
    by_cases hcb : c = b
    · simp [hcb]
    · have hmod : b % BPB ≠ c % BPB := by
        intro he
        unfold BBLOCK at hbb
        have h1 := div_add_mod c BPB
        have h2 := div_add_mod b BPB
        rw [show c / BPB = b / BPB by omega, ← he] at h1
        omega
      rw [update_of_ne hcb, decide_eq_false hmod, hbb]
      rfl
  · have hcb : c ≠ b := by
      rintro rfl
      exact hbb rfl
    simp only [update_of_ne hbb, update_of_ne hcb]

/-! `itrunc`: the positions below `t` have given up their blocks. -/

/-- The places, without those of inode `i` below `t`. -/
def below (s : Fs) (t : ℕ) (q : ℕ × ℕ) : ℕ :=
  if q.1 = s.ip.inum ∧ q.2 < t then 0 else place s.sb s.block (tab s) q

theorem below_step (t : ℕ) : below s (t + 1) = update (below s t) (s.ip.inum, t) 0 := by
  funext q
  obtain ⟨n, m⟩ := q
  by_cases hq : n = s.ip.inum ∧ m = t
  · obtain ⟨rfl, rfl⟩ := hq
    simp [below]
  · rw [update_of_ne (by simpa using hq)]
    refine if_congr ?_ rfl rfl
    simp only [not_and] at hq
    exact ⟨fun h => ⟨h.1, by have := hq h.1; omega⟩, fun h => ⟨h.1, by omega⟩⟩

/-- Where `itrunc` of `s` has got to, with the positions below `t` done. -/
structure Trunc (s : Fs) (t : ℕ) (s' : Fs) : Prop where
  sb : s'.sb = s.sb
  exact : Exact s.sb.data s.sb.size (bit s.sb s'.block) (below s t)
  low : ∀ b < s.sb.data, b < s.sb.size → bit s.sb s'.block b = true
  block : ∀ c, c < s.sb.bmapstart ∨ s.sb.data ≤ c → s'.block c = s.block c
  room : roomOf s ≤ room s.sb.size (bit s.sb s'.block)

theorem Trunc.start (h : Ready s) : Trunc s 0 s :=
  ⟨rfl, h.own.exact.congr (fun _ _ _ => rfl) (fun q => if_neg (by omega)), h.own.low, fun _ _ => rfl, le_rfl⟩

/-- A position without a block. -/
theorem Trunc.skip (h : Trunc s m s') (hs : Ready s) (hm : m ≤ MAXFILE) (h0 : s.ip.bno s.block m = 0) :
    Trunc s (m + 1) s' := by
  refine ⟨h.sb, h.exact.congr (fun _ _ _ => rfl) fun q => ?_, h.low, h.block, h.room⟩
  rw [below_step]
  by_cases hq : q = (s.ip.inum, m)
  · rw [hq, update_self, below, if_neg (by simp), hs.place_self hm, h0]
  · rw [update_of_ne hq]

theorem Trunc.bit_set (h : Trunc s m s') (hs : Ready s) (hm : m ≤ MAXFILE) (h0 : s.ip.bno s.block m ≠ 0) :
    below s m (s.ip.inum, m) = s.ip.bno s.block m ∧ bit s'.sb s'.block (s.ip.bno s.block m) = true := by
  have hb : below s m (s.ip.inum, m) = s.ip.bno s.block m := by
    rw [below, if_neg (by simp), hs.place_self hm]
  refine ⟨hb, ?_⟩
  rw [h.sb]
  have := (h.exact.range (s.ip.inum, m) (by rwa [hb])).2.2
  rwa [hb] at this

/-- A position gives up its block. -/
theorem Trunc.free (h : Trunc s m s') (hs : Ready s) (hm : m ≤ MAXFILE) (h0 : s.ip.bno s.block m ≠ 0) :
    Trunc s (m + 1) (give s' (s.ip.bno s.block m)) := by
  obtain ⟨hb, -⟩ := h.bit_set hs hm h0
  obtain ⟨hge, hlt, -⟩ := hs.range hm h0
  have hd := h.exact.drop (i := (s.ip.inum, m)) (by rwa [hb])
  rw [hb, ← below_step] at hd
  have hbit : ∀ c, bit s.sb (give s' (s.ip.bno s.block m)).block c =
      update (bit s.sb s'.block) (s.ip.bno s.block m) false c := fun c => by
    rw [← h.sb]
    exact bit_give c
  refine ⟨h.sb, hd.congr (fun c _ _ => hbit c) (fun _ => rfl), fun c hc hcs => ?_, fun c hc => ?_, ?_⟩
  · rw [hbit, update_of_ne (by omega)]
    exact h.low c hc hcs
  · rw [give_block (by rwa [h.sb]) (by rwa [h.sb]), h.block c hc]
  · refine h.room.trans ?_
    rw [room_congr fun c _ => hbit c]
    exact room_drop _

theorem sat_each {body : ℕ → Xv6.F Unit} {Q : Bool → Fs → Prop} (I : ℕ → Fs → Prop) (h0 : I 0 s)
    (hbody : ∀ i s, i < n → I i s → Sat (body i) s (fun _ s' => I (i + 1) s') G N)
    (hend : ∀ s, I n s → Q true s) : Sat (each n body) s Q G N := by
  refine sat_loop (fun i s => i ≤ n ∧ I i s) ⟨zero_le n, h0⟩ ?_ ?_
  · rintro i s hi ⟨-, hI⟩
    rw [sat_bind_eq]
    exact sat_post (hbody i s hi hI) fun _ s' h => ⟨lt_succ_self i, hi, h⟩
  · rintro i s hi ⟨hle, hI⟩
    obtain rfl : i = n := le_antisymm hle hi
    exact hend s hI

/-! `iupdate`. -/

/-- The state after `iupdate`. -/
def stored (s : Fs) : Fs :=
  { s with block := putInode s.sb s.block s.ip, log := s.log ++ [IBLOCK s.sb s.ip.inum] }

theorem sat_iupdate {Q : Unit → Fs → Prop} : Sat iupdate s Q F N = Q () (stored s) := rfl

theorem stored_block (h : s.sb.Ok) (hn : s.sb.has s.ip.inum) (hc : s.sb.bmapstart ≤ c) :
    (stored s).block c = s.block c := by
  have := iblock_lt h hn
  exact update_of_ne (by omega) _ _

theorem getInode_stored {sb : Superblock} (h : Fits s.ip) (hsb : s.sb = sb) (hn : s.ip.inum = n) :
    getInode sb (stored s).block n = (stored s).ip := by
  subst hsb hn
  exact getInode_putInode h

theorem Ready.stored (h : Ready s) : Ready (stored s) ∧ Touch s (stored s) ∧ roomOf (stored s) = roomOf s := by
  have hblk : ∀ c, s.sb.bmapstart ≤ c → (Sys.stored s).block c = s.block c := fun c hc =>
    stored_block h.own.layout h.has hc
  have hdata := bmapstart_lt_data s.sb
  have ht : Touch s (Sys.stored s) := by
    refine ⟨rfl, rfl, fun n _ hne => getInode_putInode_ne hne, fun n hn hne hty m hm h0 => hblk _ ?_⟩
    have hr := h.own.range hn (by rwa [tab_ne hne]) hm (by rwa [tab_ne hne])
    rw [tab_ne hne] at hr
    omega
  have hbit : ∀ c < s.sb.size, bit s.sb (Sys.stored s).block c = bit s.sb s.block c := fun c hc =>
    bit_congr hc fun x hx _ => hblk x hx
  refine ⟨⟨⟨h.own.layout, h.own.exact.congr (fun c _ hc => hbit c hc) ?_, ?_⟩, h.has, h.type, h.fits⟩, ht,
    room_congr hbit⟩
  · intro q
    by_cases hq : q.1 = s.ip.inum
    · have htab : tab (Sys.stored s) q.1 = tab s q.1 := by
        rw [hq, tab_self]
        exact tab_self (s := Sys.stored s)
      refine place_congr (fun _ => by rw [htab]) fun _ _ _ => ?_
      rw [htab, hq, tab_self]
      refine bno_congr rfl fun h0 => hblk _ ?_
      have hr := h.range (m := MAXFILE) le_rfl (by rwa [bno_ind])
      rw [bno_ind] at hr
      omega
    · exact ht.place hq
  · intro c hc hcs
    rw [show (Sys.stored s).sb = s.sb from rfl] at *
    rw [hbit c hcs]
    exact h.own.low c hc hcs

/-! `itrunc`. -/

/-- The inode without its blocks. -/
def emptied (ip : Inode) : Inode := { ip with size := 0, addrs := fun _ => 0 }

theorem bno_emptied : (emptied ip).bno block m = 0 := by
  simp [Inode.bno, emptied]

theorem Trunc.finish (h : Trunc s (MAXFILE + 1) s') (hs : Ready s) (hip : s'.ip = emptied s.ip) :
    Ready s' ∧ Touch s s' := by
  have hin : s'.ip.inum = s.ip.inum := by rw [hip]; rfl
  have ht : Touch s s' := hs.touch h.sb hin (fun c hc => h.block c (.inl hc)) fun c hc _ _ => h.block c (.inr hc)
  refine ⟨⟨⟨by rw [h.sb]; exact hs.own.layout, ?_, by rw [h.sb]; exact h.low⟩, by rw [h.sb, hin]; exact hs.has,
    by rw [hip]; exact hs.type, ?_⟩, ht⟩
  · rw [h.sb]
    refine h.exact.congr (fun _ _ _ => rfl) fun q => ?_
    by_cases hq : q.1 = s.ip.inum
    · have htab : tab s' q.1 = emptied s.ip := by rw [hq, ← hin, tab_self, hip]
      rw [place, htab, bno_emptied, ite_self, below]
      by_cases hm : q.2 ≤ MAXFILE
      · rw [if_pos ⟨hq, by omega⟩]
      · rw [if_neg (by omega), place, if_neg (by omega)]
    · rw [ht.place hq, below, if_neg (by simp [hq])]
  · rw [hip]
    exact ⟨hs.fits.type, hs.fits.major, hs.fits.minor, hs.fits.nlink, Nat.two_pow_pos 32, fun _ => Nat.two_pow_pos 32,
      fun _ _ => rfl⟩

/-- The inode after its first `i` direct blocks are gone. -/
def cutAt (ip : Inode) (i : ℕ) : Inode := { ip with addrs := fun k => if k < i then 0 else ip.addrs k }

theorem sat_truncDirect {i : ℕ} (hs : Ready s) (hi : i < NDIRECT) (h : Trunc s i s') (hip : s'.ip = cutAt s.ip i) :
    Sat (truncDirect i) s' (fun _ t => Trunc s (i + 1) t ∧ t.ip = cutAt s.ip (i + 1)) G N := by
  have hM : i ≤ MAXFILE := (hi.trans NDIRECT_lt_MAXFILE).le
  have ha : s'.ip.addrs i = s.ip.bno s.block i := by rw [hip, bno_direct hi]; simp [cutAt]
  have hcut : ∀ k, update (cutAt s.ip i).addrs i 0 k = (cutAt s.ip (i + 1)).addrs k := by
    intro k
    by_cases hk : k = i
    · simp [cutAt, hk]
    · rw [update_of_ne hk]
      exact if_congr (by omega) rfl rfl
  simp only [truncDirect, sat_bind_eq, sat_get_eq]
  split_ifs with h0
  · rw [ha] at h0 ⊢
    rw [sat_bind_eq]
    refine sat_bfree (h.bit_set hs hM h0).2 ?_
    have hf := h.free hs hM h0
    refine ⟨⟨hf.sb, hf.exact, hf.low, hf.block, hf.room⟩, ?_⟩
    change { s'.ip with addrs := update s'.ip.addrs i 0 } = _
    rw [hip, funext hcut]
    rfl
  · have h0 : s'.ip.addrs i = 0 := by simpa using h0
    refine ⟨h.skip hs hM (ha ▸ h0), ?_⟩
    rw [hip] at h0 ⊢
    have hself : (cutAt s.ip i).addrs = (cutAt s.ip (i + 1)).addrs := by
      rw [← funext hcut]
      exact (update_eq_self_iff.2 h0.symm).symm
    exact congrArg (fun a => { s.ip with addrs := a }) hself

theorem sat_truncIndirect (hs : Ready s) (hj : j < NINDIRECT)
    (hi : s.ip.addrs NDIRECT ≠ 0) (h : Trunc s (NDIRECT + j) s') :
    Sat (truncIndirect (s.block (s.ip.addrs NDIRECT)) j) s'
      (fun _ t => Trunc s (NDIRECT + (j + 1)) t ∧ t.ip = s'.ip) G N := by
  have hm : NDIRECT + j < MAXFILE := by
    rw [MAXFILE]
    omega
  have hb : s.ip.bno s.block (NDIRECT + j) = getWord (s.block (s.ip.addrs NDIRECT)) (NDIRECT + j - NDIRECT) :=
    bno_indirect (by omega) hm hi
  rw [Nat.add_sub_cancel_left] at hb
  unfold truncIndirect
  split_ifs with h0
  · rw [← hb] at h0 ⊢
    exact sat_bfree (h.bit_set hs hm.le h0).2 ⟨h.free hs hm.le h0, rfl⟩
  · exact ⟨h.skip hs hm.le (hb.trans (by simpa using h0)), rfl⟩

theorem Trunc.skip_ind (h : Trunc s NDIRECT s') (hs : Ready s) (hi : s.ip.addrs NDIRECT = 0) :
    Trunc s (MAXFILE + 1) s' := by
  have hall : ∀ d, NDIRECT + d ≤ MAXFILE + 1 → Trunc s (NDIRECT + d) s' := by
    intro d
    induction d with
    | zero => exact fun _ => h
    | succ d ih => exact fun hd => (ih (by omega)).skip hs (by omega) (bno_no_ind (by omega) hi)
  have := hall (NINDIRECT + 1) le_rfl
  exact this

theorem cutAt_NDIRECT (h : Fits ip) (hi : ip.addrs NDIRECT = 0) :
    { cutAt ip NDIRECT with size := 0 } = emptied ip := by
  refine congrArg (fun a => { ip with size := 0, addrs := a }) (funext fun k => ?_)
  change (if k < NDIRECT then 0 else ip.addrs k) = 0
  split_ifs with hk
  · rfl
  · rcases Nat.eq_or_lt_of_le (Nat.le_of_not_lt hk) with rfl | hlt
    · exact hi
    · exact h.rest k hlt

theorem sat_truncRest (hs : Ready s) (h : Trunc s NDIRECT s') (hip : s'.ip = cutAt s.ip NDIRECT) :
    Sat truncRest s' (fun _ t => Trunc s (MAXFILE + 1) t ∧ { t.ip with size := 0 } = emptied s.ip) G N := by
  have ha : s'.ip.addrs NDIRECT = s.ip.addrs NDIRECT := by rw [hip]; simp [cutAt]
  simp only [truncRest, sat_bind_eq, sat_get_eq]
  split_ifs with hi
  · rw [ha] at hi ⊢
    have hb : s.ip.bno s.block MAXFILE = s.ip.addrs NDIRECT := bno_ind
    have hr := hs.range (m := MAXFILE) le_rfl (by rwa [hb])
    rw [hb] at hr
    simp only [sat_bind_eq, bread, sat_get_eq, sat_pure_eq, h.block _ (.inr hr.1)]
    refine sat_each (fun j t => Trunc s (NDIRECT + j) t ∧ t.ip = s'.ip) ⟨h, rfl⟩ ?_ ?_
    · rintro j t hj ⟨hT, hipt⟩
      refine sat_post (sat_truncIndirect hs hj hi hT) ?_
      rintro - t' ⟨h1, h2⟩
      exact ⟨h1, h2.trans hipt⟩
    · rintro t ⟨hT, hipt⟩
      have hT : Trunc s MAXFILE t := hT
      rw [← hb] at hi ⊢
      refine sat_bfree (hT.bit_set hs le_rfl hi).2 ?_
      have hf := hT.free hs le_rfl hi
      refine ⟨⟨hf.sb, hf.exact, hf.low, hf.block, hf.room⟩, ?_⟩
      change { t.ip with size := 0, addrs := update t.ip.addrs NDIRECT 0 } = _
      rw [hipt, hip]
      refine congrArg (fun a => { s.ip with size := 0, addrs := a }) (funext fun k => ?_)
      by_cases hk : k = NDIRECT
      · rw [hk, update_self]
      · rw [update_of_ne hk]
        refine ite_eq_left_iff.2 fun hlt => hs.fits.rest k ?_
        omega
  · have hi : s.ip.addrs NDIRECT = 0 := by rw [← ha]; simpa using hi
    exact ⟨h.skip_ind hs hi, by rw [hip]; exact cutAt_NDIRECT hs.fits hi⟩

theorem sat_itrunc {Q : Unit → Fs → Prop} (hs : Ready s)
    (hQ : ∀ s', Ready s' → Touch s s' → s'.ip = emptied s.ip → getInode s.sb s'.block s.ip.inum = s'.ip →
      roomOf s ≤ roomOf s' → Q () s') : Sat itrunc s Q G N := by
  unfold itrunc
  rw [sat_bind_eq]
  refine sat_each (fun i t => Trunc s i t ∧ t.ip = cutAt s.ip i) ⟨Trunc.start hs, ?_⟩ ?_ ?_
  · simp [cutAt]
  · rintro i t hi ⟨hT, hip⟩
    exact sat_truncDirect hs hi hT hip
  · rintro t ⟨hT, hip⟩
    rw [sat_bind_eq]
    refine sat_post (sat_truncRest hs hT hip) ?_
    rintro - t ⟨hT, hip⟩
    rw [sat_bind_eq, sat_modify_eq, sat_iupdate]
    have hT' : Trunc s (MAXFILE + 1) { t with ip := { t.ip with size := 0 } } :=
      ⟨hT.sb, hT.exact, hT.low, hT.block, hT.room⟩
    obtain ⟨h1, h2⟩ := hT'.finish hs hip
    obtain ⟨h3, h4, h5⟩ := h1.stored
    refine hQ _ h3 (h2.trans h4) hip (getInode_stored h1.fits h2.sb h2.inum) ?_
    rw [h5]
    have hroom := hT'.room
    rw [roomOf, h2.sb]
    exact hroom

end Xv6.Sys
