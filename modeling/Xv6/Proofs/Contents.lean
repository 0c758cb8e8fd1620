import Xv6.Proofs.Blocks
import Xv6.Spec.Node

/-! `readi` and `writei` are reads and writes of the inode's node, and leave the other nodes alone. -/

namespace Xv6

open Sys List Nat

/-- What an inode and its blocks mean; a device has no contents. -/
def Inode.node (ip : Inode) (block : ℕ → Sector) : Node :=
  if ip.type = 0 then .free
  else
    { type := ip.type
      major := ip.major
      minor := ip.minor
      nlink := ip.nlink
      size := ip.size
      data := fun x =>
        if x < ip.size ∧ ip.type ≠ T_DEV then block (ip.bno block (x / BSIZE)) (x % BSIZE) else 0 }

namespace Sys

open Prog Bytes Owner

variable {s s' : Fs} {n m k a b c x off tot w : ℕ} {F : Fs → Prop} {N : String → Fs → Prop} {dev : Inode → ℕ → ℤ}
  {src : ℕ → UInt8}

/-- All the blocks of the inode's contents are there. -/
structure Cover (ip : Inode) (block : ℕ → Sector) : Prop where
  size : ip.size ≤ MAXFILE * BSIZE
  full : ∀ m, m * BSIZE < ip.size → ip.bno block m ≠ 0

theorem Cover.bno (h : Cover s.ip s.block) (hx : x < s.ip.size) :
    x / BSIZE < MAXFILE ∧ s.ip.bno s.block (x / BSIZE) ≠ 0 := by
  have h1 := h.size
  refine ⟨(div_lt_iff_lt_mul (by decide)).2 (by omega), h.full _ ?_⟩
  exact lt_of_le_of_lt (div_mul_le_self x BSIZE) hx

theorem sat_bmap_ne {Q : ℕ → Fs → Prop} (hm : m < MAXFILE)
    (h0 : s.ip.bno s.block m ≠ 0) (hQ : Q (s.ip.bno s.block m) s) : Sat (bmap m) s Q F N := by
  unfold bmap
  split_ifs with hd hk
  · rw [bno_direct hd] at h0 hQ
    simpa only [bmapDirect, sat_bind_eq, sat_get_eq, if_neg h0, sat_pure_eq] using hQ
  · have hi : s.ip.addrs NDIRECT ≠ 0 := fun hi => h0 (bno_no_ind (by omega) hi)
    rw [bno_indirect (by omega) hm hi] at h0 hQ
    simpa only [bmapDirect, bmapIndirect, bread, sat_bind_eq, sat_get_eq, sat_pure_eq, if_neg hi, if_neg h0] using hQ
  · simp only [MAXFILE] at hm
    omega

/-- The byte of the contents at `x`. -/
def byteAt (s : Fs) (x : ℕ) : UInt8 := s.block (s.ip.bno s.block (x / BSIZE)) (x % BSIZE)

/-- Offsets within one block. -/
theorem add_div_BSIZE (h : x % BSIZE + k < BSIZE) :
    (x + k) / BSIZE = x / BSIZE ∧ (x + k) % BSIZE = x % BSIZE + k := by
  simp only [show BSIZE = 512 from rfl] at *
  omega

/-- One piece of a read, and the rest. -/
theorem read_split (hw : w ≤ n - tot) (hb : (off + tot) % BSIZE + w ≤ BSIZE) :
    (range w).map (fun k => s.block (s.ip.bno s.block ((off + tot) / BSIZE)) ((off + tot) % BSIZE + k)) ++
      (range (n - (tot + w))).map (fun j => byteAt s (off + (tot + w) + j)) =
    (range (n - tot)).map fun j => byteAt s (off + tot + j) := by
  rw [show n - tot = w + (n - (tot + w)) by omega, range_add, map_append, map_map]
  congr 1
  · refine map_congr_left fun k hk => ?_
    have hk := mem_range.1 hk
    obtain ⟨h1, h2⟩ := add_div_BSIZE (x := off + tot) (k := k) (by omega)
    rw [byteAt, h1, h2]
  · refine map_congr_left fun j _ => ?_
    simp only [Function.comp_apply]
    congr 1
    omega

theorem sat_readLoop (h : Cover s.ip s.block) (hn : off + n ≤ s.ip.size) : ∀ fuel tot, n - tot ≤ fuel →
      Sat (readLoop off n fuel tot) s
        (fun bs s' => s' = s ∧ bs = (range (n - tot)).map fun j => byteAt s (off + tot + j)) F N := by
  intro fuel
  induction fuel with
  | zero =>
    intro tot hf
    refine ⟨rfl, ?_⟩
    rw [show n - tot = 0 by omega]
    rfl
  | succ fuel ih =>
    intro tot hf
    unfold readLoop
    split_ifs with hlt
    · obtain ⟨hm, h0⟩ := h.bno (x := off + tot) (by omega)
      rw [sat_bind_eq]
      refine sat_bmap_ne hm h0 ?_
      simp only [sat_bind_eq, bread, sat_get_eq, sat_pure_eq]
      have hB : 0 < BSIZE := by decide
      have hmod := mod_lt (off + tot) hB
      refine sat_post (ih _ (by omega)) ?_
      rintro bs s' ⟨rfl, rfl⟩
      exact ⟨rfl, read_split (by omega) (by omega)⟩
    · refine ⟨rfl, ?_⟩
      rw [show n - tot = 0 by omega]
      rfl

/-- A read changes nothing, and copies what is in the node. -/
theorem sat_readi {Q : ℤ × List UInt8 → Fs → Prop}
    (h : s.ip.type ≠ T_DEV → Cover s.ip s.block) (ht : s.ip.type ≠ 0) (hn : n < 2 ^ 32)
    (hQ : Q (if s.ip.type = T_DEV then (dev s.ip n, []) else (s.ip.node s.block).read off n) s) :
    Sat (readi dev off n) s Q F N := by
  simp only [readi, sat_bind_eq, sat_get_eq]
  by_cases hd : s.ip.type = T_DEV
  · rw [if_pos hd] at hQ ⊢
    exact hQ
  rw [if_neg hd] at hQ ⊢
  have hsize : (s.ip.node s.block).size = s.ip.size := by simp [Inode.node, ht]
  by_cases hout : off > s.ip.size ∨ u32 (off + n) < off
  · rw [if_pos hout]
    rw [Node.read, hsize, if_pos hout] at hQ
    exact hQ
  rw [if_neg hout]
  rw [Node.read, hsize, if_neg hout] at hQ
  simp only [not_or, not_lt] at hout
  have hle : off + (if u32 (off + n) > s.ip.size then s.ip.size - off else n) ≤ s.ip.size := by
    have h2 := hout.2
    by_cases hgt : u32 (off + n) > s.ip.size
    · rw [if_pos hgt]
      omega
    · rw [if_neg hgt]
      unfold u32 at h2 hgt
      omega
  generalize (if u32 (off + n) > s.ip.size then s.ip.size - off else n) = w at hQ hle ⊢
  simp only [sat_bind_eq]
  refine sat_post (sat_readLoop (h hd) hle w 0 (by omega)) ?_
  rintro bs s' ⟨rfl, rfl⟩
  rw [sat_pure_eq]
  have hbytes : (range (w - 0)).map (fun j => byteAt s' (off + 0 + j)) =
      (range w).map fun j => (s'.ip.node s'.block).data (off + j) := by
    refine map_congr_left fun j hj => ?_
    have := mem_range.1 hj
    rw [Inode.node, if_neg ht]
    simp only [byteAt, add_zero]
    rw [if_pos ⟨by omega, hd⟩]
  rw [hbytes]
  exact hQ

/-! Writes. -/

/-- A block of the contents gets new bytes. -/
theorem Ready.logged (h : Ready s) (hm : m < MAXFILE) (h0 : s.ip.bno s.block m ≠ 0) (d : Sector) :
    let s' := s.logged (s.ip.bno s.block m) d
    Ready s' ∧ Touch s s' ∧ (∀ k ≤ MAXFILE, s'.ip.bno s'.block k = s.ip.bno s.block k) ∧ roomOf s' = roomOf s ∧
      ∀ c, c ≠ s.ip.bno s.block m → s'.block c = s.block c := by
  intro s'
  obtain ⟨hge, hlt, -⟩ := h.range hm.le h0
  have hmid := bmapstart_lt_data s.sb
  have hblk : ∀ c, c ≠ s.ip.bno s.block m → s'.block c = s.block c := fun c hc => by simp [s', Fs.logged, hc]
  have hbit : ∀ c < s.sb.size, bit s.sb s'.block c = bit s.sb s.block c := fun c hc =>
    bit_congr hc fun x _ hx => hblk x (by omega)
  have ht : Touch s s' := h.touch rfl rfl (fun c hc => hblk c (by omega)) fun c _ _ hne => hblk c (hne m hm.le)
  have hbno : ∀ k ≤ MAXFILE, s'.ip.bno s'.block k = s.ip.bno s.block k := by
    intro k _
    refine bno_congr rfl fun hi => hblk _ ?_
    rw [show s.ip.addrs NDIRECT = s.ip.bno s.block MAXFILE from bno_ind.symm] at hi ⊢
    exact fun he => hm.ne (h.inj le_rfl hm.le he hi).symm
  refine ⟨⟨⟨h.own.layout, h.own.exact.congr (fun c _ hc => hbit c hc) ?_, ?_⟩, h.has, h.type, h.fits⟩, ht, hbno,
    room_congr hbit, hblk⟩
  · intro q
    by_cases hq : q.1 = s.ip.inum
    · have htab : tab s' q.1 = tab s q.1 := by
        rw [hq, tab_self]
        exact tab_self (s := s')
      refine place_congr (fun _ => by rw [htab]) fun _ _ hk => ?_
      rw [htab, hq, tab_self]
      exact hbno q.2 hk
    · exact ht.place hq
  · intro c hc hcs
    rw [show s'.sb = s.sb from rfl] at *
    rw [hbit c hcs]
    exact h.own.low c hc hcs

/-- Where `writei` of `n` bytes at `off` has got to after `tot` of them. -/
structure Wrote (s : Fs) (src : ℕ → UInt8) (off n tot : ℕ) (s' : Fs) : Prop where
  ready : Ready s'
  touch : Touch s s'
  ip : s'.ip = { s.ip with addrs := s'.ip.addrs }
  le : tot ≤ n
  edge : tot < n → tot = 0 ∨ (off + tot) % BSIZE = 0
  keep : ∀ m < MAXFILE, s.ip.bno s.block m ≠ 0 → s'.ip.bno s'.block m = s.ip.bno s.block m
  new : ∀ x, off ≤ x → x < off + tot → s'.ip.bno s'.block (x / BSIZE) ≠ 0
  data : ∀ x, x / BSIZE < MAXFILE → (s.ip.bno s.block (x / BSIZE) ≠ 0 ∨ (off ≤ x ∧ x < off + tot)) →
    byteAt s' x = if off ≤ x ∧ x < off + tot then src (x - off) else byteAt s x
  same : off + n ≤ s.ip.size → s'.ip = s.ip
  low : ∀ c < s.sb.bmapstart, s'.block c = s.block c
  room : roomOf s ≤ roomOf s' +
    2 * if tot < n then (off + tot) / BSIZE - off / BSIZE else (off + n - 1) / BSIZE - off / BSIZE + 1

theorem Wrote.start (h : Ready s) : Wrote s src off n 0 s where
  ready := h
  touch := .refl
  ip := rfl
  le := zero_le n
  edge _ := .inl rfl
  keep _ _ _ := rfl
  new x h1 h2 := by omega
  data x _ _ := by rw [if_neg (by omega)]
  same _ := rfl
  low _ _ := rfl
  room := le_add_right _ _

/-- The bytes of one block of a write. -/
theorem overlay_piece {d : Sector} (hx : x / BSIZE = (off + tot) / BSIZE) :
    overlay d ((off + tot) % BSIZE) ((range w).map fun k => src (tot + k)) (x % BSIZE) =
      if off + tot ≤ x ∧ x < off + tot + w then src (x - off) else d (x % BSIZE) := by
  have h1 := div_add_mod x BSIZE
  have h2 := div_add_mod (off + tot) BSIZE
  rw [hx] at h1
  by_cases hr : off + tot ≤ x ∧ x < off + tot + w
  · rw [if_pos hr, show x % BSIZE = (off + tot) % BSIZE + (x - (off + tot)) by omega, overlay_in (by simp; omega)]
    rw [getD_eq_getElem?_getD, getElem?_map, getElem?_range (by omega)]
    simp only [Option.map_some, Option.getD_some]
    congr 1
    omega
  · rw [if_neg hr, overlay_out]
    simp only [length_map, length_range]
    omega

/-- One round, after `bmap`. -/
theorem Wrote.step {t : Fs} (h : Wrote s src off n tot s')
    (hc : Cover s.ip s.block) (hlt : tot < n) (hM : off + n ≤ MAXFILE * BSIZE)
    (hw : w = min (n - tot) (BSIZE - (off + tot) % BSIZE)) (ht : Mapped s' ((off + tot) / BSIZE) a t) :
    Wrote s src off n (tot + w)
      (t.logged a (overlay (t.block a) ((off + tot) % BSIZE) ((range w).map fun k => src (tot + k)))) := by
  have hmlt : (off + tot) / BSIZE < MAXFILE := (div_lt_iff_lt_mul (by decide)).2 (by omega)
  have hmod : (off + tot) % BSIZE < BSIZE := mod_lt _ (by decide)
  obtain rfl := ht.at_self
  obtain ⟨h1, h2, h3, h4, h5⟩ := ht.ready.logged hmlt ht.ne
    (overlay (t.block (t.ip.bno t.block ((off + tot) / BSIZE))) ((off + tot) % BSIZE)
      ((range w).map fun k => src (tot + k)))
  generalize hu : t.logged (t.ip.bno t.block ((off + tot) / BSIZE)) _ = u at h1 h2 h3 h4 h5 ⊢
  have hip : u.ip = t.ip := by rw [← hu]; rfl
  have hself : u.block (t.ip.bno t.block ((off + tot) / BSIZE)) =
      overlay (t.block (t.ip.bno t.block ((off + tot) / BSIZE))) ((off + tot) % BSIZE)
        ((range w).map fun k => src (tot + k)) := by
    rw [← hu]
    simp [Fs.logged]
  have hin : t.sb = s'.sb := ht.touch.sb
  -- blocks mapped before the round stay where they are
  have hstay : ∀ k < MAXFILE, s'.ip.bno s'.block k ≠ 0 → t.ip.bno t.block k = s'.ip.bno s'.block k := by
    intro k hk h0
    by_cases hkm : k = (off + tot) / BSIZE
    · rw [hkm] at h0 ⊢
      rw [ht.same h0]
    · exact ht.other k hk hkm
  refine ⟨h1, (h.touch.trans ht.touch).trans h2, ?_, by omega, ?_, ?_, ?_, ?_, ?_, ?_, ?_⟩
  · rw [hip, ht.ip, h.ip]
  · intro hlt'
    right
    simp only [show BSIZE = 512 from rfl] at *
    omega
  · intro k hk h0
    rw [h3 k hk.le, hstay k hk (by rw [h.keep k hk h0]; exact h0), h.keep k hk h0]
  · intro x hx1 hx2
    have hxM : x / BSIZE < MAXFILE := (div_lt_iff_lt_mul (by decide)).2 (by omega)
    rw [h3 _ hxM.le]
    by_cases hx : x < off + tot
    · have h0 := h.new x hx1 hx
      rw [hstay _ hxM h0]
      exact h0
    · have : x / BSIZE = (off + tot) / BSIZE := by
        simp only [show BSIZE = 512 from rfl] at *
        omega
      rw [this]
      exact ht.ne
  · intro x hxM hx
    have hbx : byteAt u x = u.block (t.ip.bno t.block (x / BSIZE)) (x % BSIZE) := by rw [byteAt, h3 _ hxM.le]
    by_cases hxm : x / BSIZE = (off + tot) / BSIZE
    · rw [hbx, hxm, hself, overlay_piece hxm]
      by_cases hr : off + tot ≤ x ∧ x < off + tot + w
      · rw [if_pos hr, if_pos (by omega)]
      · -- a byte of the same block that is not written in this round
        rw [if_neg hr]
        have hx' : s.ip.bno s.block (x / BSIZE) ≠ 0 ∨ (off ≤ x ∧ x < off + tot) := by
          rcases hx with hx | hx
          · exact .inl hx
          · exact .inr ⟨hx.1, by omega⟩
        have h0 : s'.ip.bno s'.block (x / BSIZE) ≠ 0 := by
          rcases hx' with hx' | hx'
          · rw [h.keep _ hxM hx']
            exact hx'
          · exact h.new x hx'.1 hx'.2
        have hd := h.data x hxM hx'
        rw [hxm] at h0
        rw [byteAt, hxm] at hd
        rw [ht.same h0, hd]
        exact if_congr (by omega) rfl rfl
    · have hx' : s.ip.bno s.block (x / BSIZE) ≠ 0 ∨ (off ≤ x ∧ x < off + tot) := by
        rcases hx with hx | hx
        · exact .inl hx
        · refine .inr ⟨hx.1, ?_⟩
          by_contra hge
          simp only [show BSIZE = 512 from rfl] at *
          omega
      have h0 : s'.ip.bno s'.block (x / BSIZE) ≠ 0 := by
        rcases hx' with hx' | hx'
        · rw [h.keep _ hxM hx']
          exact hx'
        · exact h.new x hx'.1 hx'.2
      have hne : t.ip.bno t.block (x / BSIZE) ≠ t.ip.bno t.block ((off + tot) / BSIZE) := by
        intro he
        exact hxm (ht.ready.inj hxM.le hmlt.le he (by rw [he]; exact ht.ne))
      rw [hbx, h5 _ hne, hstay _ hxM h0, ht.keep _ hxM h0]
      refine (h.data x hxM hx').trans (if_congr ?_ rfl rfl)
      simp only [show BSIZE = 512 from rfl] at *
      omega
  · intro hsz
    have hb : s'.ip.bno s'.block ((off + tot) / BSIZE) ≠ 0 := by
      have h0 : s.ip.bno s.block ((off + tot) / BSIZE) ≠ 0 := (hc.bno (x := off + tot) (by omega)).2
      rw [h.keep _ hmlt h0]
      exact h0
    rw [hip, ht.same hb]
    exact h.same hsz
  · intro c hc'
    have hge := (ht.ready.range hmlt.le ht.ne).1
    have hmid := bmapstart_lt_data t.sb
    rw [hin, h.touch.sb] at hge hmid
    rw [h5 c (by omega), ht.low c (by rwa [h.touch.sb]), h.low c hc']
  · have hr := h.room
    have hr' := ht.room
    rw [if_pos hlt] at hr
    rw [h4]
    have hedge := h.edge hlt
    simp only [show BSIZE = 512 from rfl] at *
    split_ifs <;> omega

/-- Fields other than the blocks of the inode change in memory. -/
theorem Ready.setIp {x : Inode} (h : Ready s) (hin : x.inum = s.ip.inum) (ha : x.addrs = s.ip.addrs)
    (ht : x.type ≠ 0) (hf : Fits x) : Ready { s with ip := x } ∧ Touch s { s with ip := x } := by
  have hT : Touch s { s with ip := x } := ⟨rfl, hin, fun _ _ _ => rfl, fun _ _ _ _ _ _ _ => rfl⟩
  refine ⟨⟨⟨h.own.layout, h.own.exact.congr (fun _ _ _ => rfl) fun q => ?_, h.own.low⟩, ?_, ht, hf⟩, hT⟩
  · by_cases hq : q.1 = s.ip.inum
    · obtain ⟨n, m⟩ := q
      obtain rfl : n = s.ip.inum := hq
      have htab : tab { s with ip := x } s.ip.inum = x := if_pos hin.symm
      by_cases hm : m ≤ MAXFILE
      · rw [h.place_self hm, place_eq h.has (by rw [htab]; exact ht) hm, htab]
        exact bno_congr ha fun _ => rfl
      · simp [place, hm]
    · exact hT.place hq
  · change s.sb.has x.inum
    rw [hin]
    exact h.has

/-- `iupdate` leaves the blocks of the inode alone. -/
theorem Ready.bno_stored (h : Ready s) : (Sys.stored s).ip.bno (Sys.stored s).block m = s.ip.bno s.block m := by
  refine bno_congr rfl fun h0 => stored_block h.own.layout h.has ?_
  have hr := h.range (m := MAXFILE) le_rfl (by rwa [bno_ind])
  have := bmapstart_lt_data s.sb
  rw [bno_ind] at hr
  omega

theorem Ready.byteAt_stored (h : Ready s) (hx : x / BSIZE < MAXFILE)
    (h0 : s.ip.bno s.block (x / BSIZE) ≠ 0) : byteAt (Sys.stored s) x = byteAt s x := by
  have hr := (h.range hx.le h0).1
  have := bmapstart_lt_data s.sb
  unfold byteAt
  rw [h.bno_stored, stored_block h.own.layout h.has (by omega)]

theorem Cover.stored (h : Cover s.ip s.block) (hs : Ready s) : Cover (Sys.stored s).ip (Sys.stored s).block :=
  ⟨h.size, fun m hm => by rw [hs.bno_stored]; exact h.full m hm⟩

/-- `writei` does not start. -/
def Node.refuses (x : Node) (off n : ℕ) : Prop :=
  (off > x.size ∨ u32 (off + n) < off) ∨ u32 (off + n) > MAXFILE * BSIZE

/-- How many blocks `n` bytes at `off` are in. -/
def spans (off n : ℕ) : ℕ := (off + n - 1) / BSIZE - off / BSIZE + 1

/-- What a `writei` that goes through does. -/
structure Written (s : Fs) (src : ℕ → UInt8) (off n : ℕ) (s' : Fs) : Prop where
  ready : Ready s'
  touch : Touch s s'
  disk : getInode s.sb s'.block s.ip.inum = s'.ip
  cover : Cover s'.ip s'.block
  node : s'.ip.node s'.block = (s.ip.node s.block).write src off n
  room : roomOf s ≤ roomOf s' + 2 * spans off n

/-- The contents when all the bytes are there. -/
theorem Wrote.node (h : Wrote s src off n n s') (hs : Ready s)
    (hd : s.ip.type ≠ T_DEV) (hc : Cover s.ip s.block) (hoff : off ≤ s.ip.size) (hM : off + n ≤ MAXFILE * BSIZE) :
    let ip := { s'.ip with size := max s.ip.size (off + n) }
    Cover ip s'.block ∧ ip.node s'.block = (s.ip.node s.block).write src off n := by
  intro ip
  have hbno : ∀ m, ip.bno s'.block m = s'.ip.bno s'.block m := fun m => bno_congr rfl fun _ => rfl
  have hcs := hc.size
  have hin : ∀ x, x < max s.ip.size (off + n) → x / BSIZE < MAXFILE ∧
      (s.ip.bno s.block (x / BSIZE) ≠ 0 ∨ (off ≤ x ∧ x < off + n)) := by
    intro x hx
    refine ⟨(div_lt_iff_lt_mul (by decide)).2 (by omega), ?_⟩
    by_cases hxs : x < s.ip.size
    · exact .inl (hc.bno hxs).2
    · exact .inr (by omega)
  refine ⟨⟨?_, ?_⟩, ?_⟩
  · change max s.ip.size (off + n) ≤ MAXFILE * BSIZE
    omega
  · intro m hm
    obtain ⟨h1, h2⟩ := hin (m * BSIZE) hm
    have hdiv : m * BSIZE / BSIZE = m := Nat.mul_div_cancel m (by decide)
    rw [hbno]
    rcases h2 with h2 | h2
    · rw [hdiv] at h1 h2
      rw [h.keep m h1 h2]
      exact h2
    · have := h.new _ h2.1 h2.2
      rwa [hdiv] at this
  · have hip := h.ip
    have hty : ip.type = s.ip.type := by
      change s'.ip.type = _
      rw [hip]
    rw [Inode.node, if_neg (by rw [hty]; exact hs.type), Inode.node, if_neg hs.type, Node.write]
    have hdata : ∀ x, (if x < ip.size ∧ ip.type ≠ T_DEV then
          s'.block (ip.bno s'.block (x / BSIZE)) (x % BSIZE) else 0) =
        if off ≤ x ∧ x < off + n then src (x - off) else
          if x < s.ip.size ∧ s.ip.type ≠ T_DEV then s.block (s.ip.bno s.block (x / BSIZE)) (x % BSIZE) else 0 := by
      intro x
      by_cases hx : x < max s.ip.size (off + n)
      · obtain ⟨h1, h2⟩ := hin x hx
        rw [if_pos ⟨hx, by rwa [hty]⟩, hbno]
        refine (h.data x h1 h2).trans ?_
        by_cases h3 : off ≤ x ∧ x < off + n
        · rw [if_pos h3, if_pos h3]
        · rw [if_neg h3, if_neg h3, if_pos ⟨by omega, hd⟩]
          rfl
      · rw [if_neg (fun h => hx h.1), if_neg (by omega), if_neg (fun h => hx (by omega))]
    simp only [hdata]
    change Node.mk s'.ip.type s'.ip.major s'.ip.minor s'.ip.nlink (max s.ip.size (off + n)) _ = _
    rw [hip]

theorem Ready.node_stored (h : Ready s) (hc : s.ip.type ≠ T_DEV → Cover s.ip s.block) :
    (Sys.stored s).ip.node (Sys.stored s).block = s.ip.node s.block := by
  unfold Inode.node
  refine if_congr Iff.rfl rfl (congrArg (Node.mk _ _ _ _ _) (funext fun x => ?_))
  by_cases hx : x < s.ip.size ∧ s.ip.type ≠ T_DEV
  · obtain ⟨h1, h2⟩ := (hc hx.2).bno hx.1
    rw [if_pos hx]
    exact (if_pos hx).trans (h.byteAt_stored h1 h2)
  · rw [if_neg hx]
    exact if_neg hx

theorem Fits.setSize {ip : Inode} (h : Fits ip) (hn : n < 2 ^ 32) : Fits { ip with size := n } :=
  ⟨h.type, h.major, h.minor, h.nlink, hn, h.addrs, h.rest⟩

/-- All the bytes are there, and the inode has grown: `iupdate`. -/
theorem Wrote.grow (h : Wrote s src off n n s') (hs : Ready s)
    (hd : s.ip.type ≠ T_DEV) (hc : Cover s.ip s.block) (hoff : off ≤ s.ip.size) (hM : off + n ≤ MAXFILE * BSIZE)
    (hgrow : s.ip.size < off + n) :
    Written s src off n (stored { s' with ip := { s'.ip with size := off + n } }) := by
  have hroom := h.room
  rw [if_neg (lt_irrefl n)] at hroom
  obtain ⟨hcov, hnode⟩ := h.node hs hd hc hoff hM
  rw [max_eq_right hgrow.le] at hcov hnode
  have hlt : MAXFILE * BSIZE < 2 ^ 32 := by decide
  have hfits := h.ready.fits.setSize (lt_of_le_of_lt hM hlt)
  obtain ⟨hr, hT⟩ := h.ready.setIp (x := { s'.ip with size := off + n }) rfl rfl h.ready.type hfits
  obtain ⟨hr', hT', hroom'⟩ := hr.stored
  refine ⟨hr', (h.touch.trans hT).trans hT', ?_, hcov.stored hr, (hr.node_stored fun _ => hcov).trans hnode, ?_⟩
  · exact getInode_stored hr.fits h.touch.sb h.touch.inum
  · rw [hroom']
    exact hroom

/-- All the bytes are there, and the inode has not grown, so no block is new. -/
theorem Wrote.done (h : Wrote s src off n n s') (hs : Ready s)
    (hd : s.ip.type ≠ T_DEV) (hc : Cover s.ip s.block) (hoff : off ≤ s.ip.size) (hM : off + n ≤ MAXFILE * BSIZE)
    (hdisk : getInode s.sb s.block s.ip.inum = s.ip) (hgrow : off + n ≤ s.ip.size) :
    Written s src off n s' := by
  have hroom := h.room
  rw [if_neg (lt_irrefl n)] at hroom
  obtain ⟨hcov, hnode⟩ := h.node hs hd hc hoff hM
  have hsz : max s.ip.size (off + n) = s'.ip.size := by rw [max_eq_left hgrow, h.ip]
  rw [hsz] at hcov hnode
  refine ⟨h.ready, h.touch, ?_, hcov, hnode, hroom⟩
  rw [h.same hgrow, ← hdisk]
  exact getInode_same hs.own.layout hs.has h.low

/-- `writei` refuses, or writes to the node. -/
theorem sat_writei {Q : ℤ → Fs → Prop} (hs : Ready s) (hc : s.ip.type ≠ T_DEV → Cover s.ip s.block)
    (hdisk : getInode s.sb s.block s.ip.inum = s.ip) (hn : n < 2 ^ 32)
    (hdev : s.ip.type = T_DEV → Q (dev s.ip n) s)
    (hbad : s.ip.type ≠ T_DEV → (s.ip.node s.block).refuses off n → Q (-1) s)
    (hQ : s.ip.type ≠ T_DEV → ¬ (s.ip.node s.block).refuses off n → ∀ s', Written s src off n s' → Q n s')
    (hN : roomOf s < 2 * spans off n → ∀ s', N "balloc: out of blocks" s') :
    Sat (writei dev src off n) s Q F N := by
  have hsize : (s.ip.node s.block).size = s.ip.size := by simp [Inode.node, hs.type]
  simp only [writei, sat_bind_eq, sat_get_eq]
  by_cases hd : s.ip.type = T_DEV
  · rw [if_pos hd]
    exact hdev hd
  rw [if_neg hd]
  have hbad := hbad hd
  have hQ := hQ hd
  unfold Node.refuses at hbad hQ
  rw [hsize] at hbad hQ
  by_cases h1 : off > s.ip.size ∨ u32 (off + n) < off
  · rw [if_pos h1]
    exact hbad (.inl h1)
  rw [if_neg h1]
  by_cases h2 : u32 (off + n) > MAXFILE * BSIZE
  · rw [if_pos h2]
    exact hbad (.inr h2)
  rw [if_neg h2, sat_bind_eq]
  have hQ := hQ (not_or.2 ⟨h1, h2⟩)
  have hoff : off ≤ s.ip.size := by omega
  have hM : off + n ≤ MAXFILE * BSIZE := by
    unfold u32 at h1 h2
    omega
  have hcov := hc hd
  refine sat_loop (fun tot t => Wrote s src off n tot t) (Wrote.start hs) ?_ ?_
  · intro tot t hlt hW
    simp only [sat_bind_eq, writeBlock]
    refine sat_bmap hW.ready ((div_lt_iff_lt_mul (by decide)).2 (by omega)) ?_ ?_
    · intro a t' ht
      simp only [bread, sat_bind_eq, sat_get_eq, sat_pure_eq, sat_logWrite]
      have hmod := mod_lt (off + tot) (show 0 < BSIZE by decide)
      exact ⟨by omega, hW.step hcov hlt hM rfl ht⟩
    · intro hr
      refine hN ?_
      have hroom := hW.room
      rw [if_pos hlt] at hroom
      unfold spans
      have hdiv : (off + tot) / BSIZE ≤ (off + n - 1) / BSIZE := Nat.div_le_div_right (by omega)
      omega
  · intro tot t hge hW
    obtain rfl : tot = n := le_antisymm hW.le hge
    have hsz : t.ip.size = s.ip.size := by rw [hW.ip]
    simp only [sat_bind_eq, sat_get_eq, hsz]
    by_cases hgrow : tot > 0 ∧ off + tot > s.ip.size
    · rw [if_pos hgrow]
      exact hQ _ (hW.grow hs hd hcov hoff hM hgrow.2)
    · rw [if_neg hgrow]
      exact hQ _ (hW.done hs hd hcov hoff hM hdisk (by omega))

end Sys

end Xv6
