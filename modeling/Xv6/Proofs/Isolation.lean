import Xv6.Proofs.Events

/-! What the steps keep beside the account: who may write a page, which pages a user process
reaches, and that an entry no step may touch stays what it is. -/

namespace Xv6

open Prog Count Relation Function

variable {L : Linker} {P : Perm} {a b : Kern × Ghost} {d v f d₀ v₀ d' v' : ℕ} {e : Pte}

/-- What one step can make of the entry for user page `v` in directory `d`. -/
inductive EntryStep (L : Linker) (P : Perm) (a b : Kern × Ghost) (d v : ℕ) : Prop where
  | same (h : b.1.entry d v = a.1.entry d v)
  | change (h : Change L P a.1 d v (b.1.entry d v)) (hr : b.1.refCount = a.1.refCount) (hg : b.2 = a.2)
  | fresh (ht : P.touch d v) (hheld : a.2.cls (b.1.entry d v).ppn = .held)
      (hcow : (b.1.entry d v).cow = false) (hr : b.1.refCount = a.1.refCount)
      (hc : b.2.cls (b.1.entry d v).ppn = cond (P.area d v) .shm .priv)
  | vdso {f : ℕ} (ht : P.touch d v) (h0 : v ≠ 0)
      (he : b.1.entry d v = { p := true, u := true, ppn := f }) (hc : b.2.cls f = .own .vdso)
  | empty (ht : P.touch d v) (he : b.1.entry d v = {})

/-- An update of one entry leaves the others the same. -/
theorem EntryStep.of_upd (he : b.1.entry = upd a.1.entry d₀ v₀ e)
    (h : b.1.entry d₀ v₀ = e → EntryStep L P a b d₀ v₀) : EntryStep L P a b d v := by
  by_cases hq : d = d₀ ∧ v = v₀
  · obtain ⟨rfl, rfl⟩ := hq
    exact h (by rw [he, upd_same])
  · exact .same (by rw [he, upd_ne hq])

theorem Ev.entry_step (h : Ev L P a b) (hI : Inv L a.1 a.2) : EntryStep L P a b d v := by
  cases h with
  | quiet h _ => exact .same (congrFun (congrFun h.entry d) v)
  | procs _ => exact .same rfl
  | pass r c hok hr hc he href hh ho ht hn => exact .same (congrFun (congrFun he d) v)
  | change hc h _ =>
    refine .of_upd h.entry fun he => ?_
    exact .change (by rw [he]; exact hc) h.refCount rfl
  | map ht hv htab hp hheld hcow h _ =>
    refine .of_upd h.entry fun he => ?_
    refine .fresh ht (by rw [he]; exact hheld) (by rw [he]; exact hcow) h.refCount ?_
    rw [he]
    exact Ghost.set_self _ _ _
  | vshare ht hv h0 htab hp hf h _ =>
    exact .of_upd h.entry fun he => .vdso ht h0 he (by rw [Ghost.lose_cls]; exact hf)
  | drop ht hv hsrc hp hf0 h1 h _ => exact .of_upd h.entry fun he => .empty ht he
  | last ht hv hsrc hp hf0 h1 hk hf he hr _ => exact .of_upd he fun he => .empty ht he
  | @untab s s' g d₀ k r ht hsrc hr0 hk hf he hr _ =>
    have hev := congrFun (congrFun he d) v
    rw [entry_dropTab] at hev
    split_ifs at hev with hq
    · exact .empty (hq.1 ▸ ht v hq.2) hev
    · exact .same hev
  | write ht hv hw h _ => exact .same (congrFun (congrFun h.entry d) v)

/-- A user page keeps its class until the last entry for it goes. -/
theorem Ev.cls_step (h : Ev L P a b) (hI : Inv L a.1 a.2) (hu : (a.2.cls f).user) :
    b.2.cls f = a.2.cls f ∨ ∃ d v, v < NUPG ∧ P.touch d v ∧ (a.1.entry d v).ppn = f ∧
      a.1.refCount f = 1 ∧ (v = 0 → (a.1.entry d v).p = true) ∧ b.1.entry = upd a.1.entry d v {} := by
  have hne : ∀ r, ¬ (a.2.cls r).user → f ≠ r := fun r hr hfr => hr (hfr ▸ hu)
  have hheld : ∀ r, a.2.cls r = .held → f ≠ r := fun r hr => hne r (by rw [hr]; exact Cls.held_not_user)
  cases h with
  | quiet h _ => exact .inl rfl
  | procs _ => exact .inl rfl
  | pass r c hok hr hc he href hh ho ht hn => exact .inl (Ghost.set_ne _ _ (hne r hr.not_user))
  | change hc h _ => exact .inl rfl
  | map ht hv htab hp hh hcow h _ =>
    refine .inl ?_
    rw [Ghost.set_ne _ _ (hheld _ hh), Ghost.lose_cls]
  | vshare ht hv h0 htab hp hf h _ => exact .inl (by rw [Ghost.lose_cls])
  | drop ht hv hsrc hp hf0 h1 h _ => exact .inl rfl
  | @last s s' g d₀ v₀ e ht hv hsrc hp hf0 h1 hk hf he hr _ =>
    subst hsrc
    rcases eq_or_ne f (s.entry d₀ v₀).ppn with rfl | hq
    · exact .inr ⟨d₀, v₀, hv, ht, rfl, h1, hp, he⟩
    · exact .inl (Ghost.set_ne _ _ hq)
  | @untab s s' g d₀ k r ht hsrc hr0 hk hf he hr _ =>
    exact .inl (Ghost.set_ne _ _ (hne r (hI.tab_not_user hsrc hr0)))
  | write ht hv hw h _ => exact .inl rfl

/-- While an entry names a user page, the page keeps its class. -/
theorem Ev.cls_of_named (h : Ev L P a b) (hI : Inv L a.1 a.2) (hv : v < NUPG)
    (hp : (a.1.entry d v).ppn ≠ 0) (hs : (b.1.entry d v).ppn = (a.1.entry d v).ppn) :
    b.2.cls (a.1.entry d v).ppn = a.2.cls (a.1.entry d v).ppn := by
  rcases h.cls_step hI ((hI.named d v hv).resolve_left hp) with hc | ⟨d', v', hv', -, he, h1, -, hb⟩
  · exact hc
  · obtain ⟨rfl, rfl⟩ := hI.unique hv hv' hp h1 he
    rw [hb, upd_same] at hs
    exact absurd hs.symm hp

/-- The count of a page with one reference stays, or the last entry goes. -/
theorem Ev.ref_step (h : Ev L P a b) (hI : Inv L a.1 a.2) (hc : a.2.cls f = .priv)
    (h1 : a.1.refCount f = 1) :
    b.1.refCount f = 1 ∨ ∃ d v, v < NUPG ∧ (a.1.entry d v).ppn = f ∧ b.1.entry = upd a.1.entry d v {} := by
  have hne : ∀ r, ¬ (a.2.cls r).user → f ≠ r := by
    intro r hr hfr
    exact hr (hfr ▸ .inl hc)
  cases h with
  | quiet h _ => exact .inl (by rw [h.refCount]; exact h1)
  | procs _ => exact .inl h1
  | pass r c hok hr hc' he href hh ho ht hn =>
    refine .inl ?_
    rw [href, update_of_ne (hne r hr.not_user)]
    exact h1
  | change hc' h _ => exact .inl (by rw [h.refCount]; exact h1)
  | map ht hv htab hp hh hcow h _ => exact .inl (by rw [h.refCount]; exact h1)
  | @vshare s s' g d₀ v₀ f' ht hv h0 htab hp hf h _ =>
    have hq : f ≠ f' := by
      rintro rfl
      rw [show g.cls _ = _ from hc] at hf
      simp at hf
    exact .inl (by rw [h.refCount, update_of_ne hq]; exact h1)
  | drop ht hv hsrc hp hf0 h2 h _ =>
    refine .inl ?_
    rw [h.refCount, update_of_ne]
    · exact h1
    · rintro rfl
      exact h2 h1
  | @last s s' g d₀ v₀ e ht hv hsrc hp hf0 h2 hk hf he hr _ =>
    subst hsrc
    rcases eq_or_ne f (s.entry d₀ v₀).ppn with rfl | hq
    · exact .inr ⟨d₀, v₀, hv, rfl, he⟩
    · exact .inl (by rw [hr, update_of_ne hq]; exact h1)
  | @untab s s' g d₀ k r ht hsrc hr0 hk hf he hr _ =>
    exact .inl (by rw [hr, update_of_ne (hne r (hI.tab_not_user hsrc hr0))]; exact h1)
  | write ht hv hw h _ => exact .inl (by rw [h.refCount]; exact h1)

/-! Who may write a page. -/

structure Excl (s : Kern) (g : Ghost) : Prop where
  cow : ∀ d v, v < NUPG → (s.entry d v).w = true → (s.entry d v).cow = false
  /-- a writable page that is not shared memory has one reference -/
  one : ∀ d v, v < NUPG → (s.entry d v).w = true → (s.entry d v).ppn ≠ 0 →
    g.cls (s.entry d v).ppn = .shm ∨ (g.cls (s.entry d v).ppn = .priv ∧ s.refCount (s.entry d v).ppn = 1)

theorem Excl.step_one (hX : Excl a.1 a.2) (h : Ev L P a b) (hI : Inv L a.1 a.2) (hv : v < NUPG)
    (hw : (a.1.entry d v).w = true) (hp : (a.1.entry d v).ppn ≠ 0)
    (hs : (b.1.entry d v).ppn = (a.1.entry d v).ppn) :
    b.2.cls (a.1.entry d v).ppn = .shm ∨
      (b.2.cls (a.1.entry d v).ppn = .priv ∧ b.1.refCount (a.1.entry d v).ppn = 1) := by
  have hcls := h.cls_of_named hI hv hp hs
  rcases hX.one d v hv hw hp with hc | ⟨hc, h1⟩
  · exact .inl (hcls.trans hc)
  · refine .inr ⟨hcls.trans hc, ?_⟩
    rcases h.ref_step hI hc h1 with h1' | ⟨d', v', hv', he, hb⟩
    · exact h1'
    · obtain ⟨rfl, rfl⟩ := hI.unique hv hv' hp h1 he
      rw [hb, upd_same] at hs
      exact absurd hs.symm hp

theorem Excl.step (hX : Excl a.1 a.2) (h : Ev L P a b) (hI : Inv L a.1 a.2) : Excl b.1 b.2 := by
  refine ⟨fun d v hv hw => ?_, fun d v hv hw hp => ?_⟩
  · rcases h.entry_step (d := d) (v := v) hI with
      he | ⟨hc, -, -⟩ | ⟨-, -, hcow, -, -⟩ | ⟨-, -, he, -⟩ | ⟨-, he⟩
    · rw [he] at hw ⊢
      exact hX.cow d v hv hw
    · generalize b.1.entry d v = e at hc hw
      cases hc with
      | kern hk => omega
      | clear => exact hX.cow d v hv hw
      | claim => rfl
    · exact hcow
    · rw [he]
    · rw [he]
  · rcases h.entry_step (d := d) (v := v) hI with
      he | ⟨hc, hr, hg⟩ | ⟨-, hheld, -, hr, hc⟩ | ⟨-, -, he, -⟩ | ⟨-, he⟩
    · rw [he] at hw hp ⊢
      exact hX.step_one h hI hv hw hp (by rw [he])
    · have hpp := hc.ppn hv
      rw [hr, hg, hpp]
      rw [hpp] at hp
      generalize b.1.entry d v = e at hc hw
      cases hc with
      | kern hk => omega
      | clear => exact hX.one d v hv hw hp
      | claim _ _ _ h1 =>
        exact (hI.cls_of_last hv hp h1).1.symm.imp_right fun hc => ⟨hc, h1⟩
    · rw [hr, hc, (hI.held_count hheld).1]
      cases P.area d v
      · exact .inr ⟨rfl, rfl⟩
      · exact .inl rfl
    · rw [he] at hw
      simp at hw
    · rw [he] at hw
      simp at hw

/-! Shared memory pages are mapped in the areas `A` only, and there nothing else is writable. -/

structure InArea (A : ℕ → ℕ → Bool) (s : Kern) (g : Ghost) : Prop where
  shm : ∀ d v, v < NUPG → (s.entry d v).ppn ≠ 0 → g.cls (s.entry d v).ppn = .shm → A d v = true
  cls : ∀ d v, v < NUPG → A d v = true → (s.entry d v).w = true → (s.entry d v).ppn ≠ 0 →
    g.cls (s.entry d v).ppn = .shm
  cow : ∀ d v, v < NUPG → A d v = true → (s.entry d v).cow = false

theorem InArea.step (hA : InArea P.area a.1 a.2) (h : Ev L P a b) (hI : Inv L a.1 a.2) :
    InArea P.area b.1 b.2 := by
  refine ⟨fun d v hv hp hc => ?_, fun d v hv ha hw hp => ?_, fun d v hv ha => ?_⟩
  · rcases h.entry_step (d := d) (v := v) hI with
      he | ⟨hch, -, hg⟩ | ⟨-, -, -, -, hcls⟩ | ⟨-, -, he, hcls⟩ | ⟨-, he⟩
    · rw [he] at hp hc
      rw [h.cls_of_named hI hv hp (by rw [he])] at hc
      exact hA.shm d v hv hp hc
    · have hpp := hch.ppn hv
      rw [hpp] at hp hc
      rw [hg] at hc
      exact hA.shm d v hv hp hc
    · rw [hcls] at hc
      cases har : P.area d v with
      | false => simp [har] at hc
      | true => rfl
    · rw [he, hcls] at hc
      simp at hc
    · rw [he] at hp
      exact absurd rfl hp
  · rcases h.entry_step (d := d) (v := v) hI with
      he | ⟨hch, -, hg⟩ | ⟨-, -, -, -, hcls⟩ | ⟨-, -, he, -⟩ | ⟨-, he⟩
    · rw [he] at hw hp ⊢
      rw [h.cls_of_named hI hv hp (by rw [he])]
      exact hA.cls d v hv ha hw hp
    · have hpp := hch.ppn hv
      rw [hpp, hg]
      rw [hpp] at hp
      generalize b.1.entry d v = e at hch hw
      cases hch with
      | kern hk => omega
      | clear => exact hA.cls d v hv ha hw hp
      | claim _ _ hcow _ =>
        rw [hA.cow d v hv ha] at hcow
        simp at hcow
    · rw [hcls, ha]
      rfl
    · rw [he] at hw
      simp at hw
    · rw [he] at hw
      simp at hw
  · rcases h.entry_step (d := d) (v := v) hI with
      he | ⟨hch, -, -⟩ | ⟨-, -, hcow, -, -⟩ | ⟨-, -, he, -⟩ | ⟨-, he⟩
    · rw [he]
      exact hA.cow d v hv ha
    · generalize b.1.entry d v = e at hch
      cases hch with
      | kern hk => omega
      | clear => exact hA.cow d v hv ha
      | claim => rfl
    · exact hcow
    · rw [he]
    · rw [he]

theorem vdso_ne_zero (hI : Inv L b.1 b.2) (hc : b.2.cls f = .own .vdso) : f ≠ 0 :=
  L.ok_ne_zero (hI.ok_of_ne_raw (by rw [hc]; simp))

/-! A page keeps its place: all entries for it are for one page number. -/

/-- But for the vdso pages. -/
def OnePage (s : Kern) (g : Ghost) : Prop :=
  ∀ d v d' v', v < NUPG → v' < NUPG → (s.entry d v).ppn ≠ 0 → (s.entry d' v').ppn = (s.entry d v).ppn →
    g.cls (s.entry d v).ppn ≠ .own .vdso → v' = v

theorem upd_changed {E : ℕ → ℕ → Pte} (h : upd E d₀ v₀ e d v ≠ E d v)
    (h' : upd E d₀ v₀ e d' v' ≠ E d' v') : v' = v := by
  have hq : d = d₀ ∧ v = v₀ := by
    by_contra hq
    exact h (upd_ne hq)
  have hq' : d' = d₀ ∧ v' = v₀ := by
    by_contra hq'
    exact h' (upd_ne hq')
  rw [hq.2, hq'.2]

/-- A step gives a frame to one entry at most. -/
theorem Ev.one_change (h : Ev L P a b) (h1 : b.1.entry d v ≠ a.1.entry d v)
    (h2 : b.1.entry d' v' ≠ a.1.entry d' v') (hp : (b.1.entry d v).ppn ≠ 0) : v' = v := by
  cases h with
  | quiet h _ => exact absurd (congrFun (congrFun h.entry d) v) h1
  | procs _ => exact absurd rfl h1
  | pass r c hok hr hc he => exact absurd (congrFun (congrFun he d) v) h1
  | change hc h _ => rw [h.entry] at h1 h2; exact upd_changed h1 h2
  | map ht hv htab hp hh hcow h _ => rw [h.entry] at h1 h2; exact upd_changed h1 h2
  | vshare ht hv h0 htab hp hf h _ => rw [h.entry] at h1 h2; exact upd_changed h1 h2
  | drop ht hv hsrc hp hf0 h1' h _ => rw [h.entry] at h1 h2; exact upd_changed h1 h2
  | last ht hv hsrc hp hf0 h1' hk hf he hr _ => rw [he] at h1 h2; exact upd_changed h1 h2
  | untab ht hsrc hr0 hk hf he hr _ =>
    rw [he, entry_dropTab] at h1 hp
    split_ifs at h1 hp
    · exact absurd rfl hp
    · exact absurd rfl h1
  | write ht hv hw h _ => exact absurd (congrFun (congrFun h.entry d) v) h1

/-- Where the frame of an entry comes from. -/
theorem Ev.origin (h : Ev L P a b) (hI : Inv L a.1 a.2) (hv : v < NUPG) (hp : (b.1.entry d v).ppn ≠ 0) :
    (∃ d', (a.1.entry d' v).ppn = (b.1.entry d v).ppn) ∨
      (a.2.cls (b.1.entry d v).ppn = .held ∧ b.1.entry d v ≠ a.1.entry d v) ∨
      b.2.cls (b.1.entry d v).ppn = .own .vdso := by
  have hnew : a.2.cls (b.1.entry d v).ppn = .held → b.1.entry d v ≠ a.1.entry d v := by
    intro hh he
    refine hI.ppn_ne (d := d) hv ?_ hp (by rw [he])
    rw [hh]
    exact Cls.held_not_user
  rcases h.entry_step (d := d) (v := v) hI with
    he | ⟨hch, -, -⟩ | ⟨-, hheld, -, -, -⟩ | ⟨-, -, he, hc⟩ | ⟨-, he⟩
  · exact .inl ⟨d, by rw [he]⟩
  · exact .inl ⟨d, (hch.ppn hv).symm⟩
  · exact .inr (.inl ⟨hheld, hnew hheld⟩)
  · exact .inr (.inr (by rw [he]; exact hc))
  · rw [he] at hp
    exact absurd rfl hp

theorem OnePage.step (hO : OnePage a.1 a.2) (h : Ev L P a b) (hI : Inv L a.1 a.2) : OnePage b.1 b.2 := by
  intro d v d' v' hv hv' hp he hc
  have hp' : (b.1.entry d' v').ppn ≠ 0 := by rw [he]; exact hp
  have hheld : ∀ d v, v < NUPG → a.2.cls (a.1.entry d v).ppn = .held → (a.1.entry d v).ppn ≠ 0 → False := by
    intro d v hv hh h0
    refine hI.ppn_ne (d := d) hv ?_ h0 rfl
    rw [hh]
    exact Cls.held_not_user
  rcases h.origin hI hv hp with ⟨d₁, h₁⟩ | ⟨hh, hne⟩ | hvd
  · rcases h.origin hI hv' hp' with ⟨d₂, h₂⟩ | ⟨hh', -⟩ | hvd
    · have hp₁ : (a.1.entry d₁ v).ppn ≠ 0 := by rw [h₁]; exact hp
      refine hO d₁ v d₂ v' hv hv' hp₁ (by rw [h₁, h₂, he]) fun hvd => ?_
      -- a vdso page stays one
      rcases h.cls_step hI ((hI.named d₁ v hv).resolve_left hp₁) with hs | ⟨d₃, v₃, hv₃, -, he₃, h1, -, -⟩
      · rw [h₁] at hs hvd
        exact hc (hs.trans hvd)
      · have := (hI.cls_of_last (d := d₃) hv₃ (by rw [he₃]; exact hp₁) (by rw [he₃]; exact h1)).1
        rw [he₃, hvd] at this
        simp at this
    · rw [he, ← h₁] at hh'
      exact (hheld d₁ v hv hh' (by rw [h₁]; exact hp)).elim
    · rw [he] at hvd
      exact absurd hvd hc
  · rcases h.origin hI hv' hp' with ⟨d₂, h₂⟩ | ⟨-, hne'⟩ | hvd
    · rw [← he, ← h₂] at hh
      exact (hheld d₂ v' hv' hh (by rw [h₂]; exact hp')).elim
    · exact h.one_change hne hne' hp
    · rw [he] at hvd
      exact absurd hvd hc
  · exact absurd hvd hc

/-! Frame rules: what no step may touch stays. -/

theorem Ev.ppn_of_untouched (h : Ev L P a b) (hI : Inv L a.1 a.2) (ht : ¬ P.touch d v) :
    (b.1.entry d v).ppn = (a.1.entry d v).ppn := by
  rcases h.entry_step (d := d) (v := v) hI with
    he | ⟨hch, -, -⟩ | ⟨ht', -⟩ | ⟨ht', -⟩ | ⟨ht', -⟩
  · rw [he]
  · by_cases hv : v < NUPG
    · exact hch.ppn hv
    · generalize b.1.entry d v = e at hch
      cases hch with
      | kern _ ht' => exact absurd ht' ht
      | clear hv' => exact absurd hv' hv
      | claim hv' => exact absurd hv' hv
  all_goals exact absurd ht' ht

/-- The bytes of a user page stay, unless an entry that names it gives up the last reference or is written through. -/
theorem Ev.mem_step (h : Ev L P a b) (hI : Inv L a.1 a.2) (hu : (a.2.cls f).user) :
    b.1.mem f = a.1.mem f ∨ ∃ d v, v < NUPG ∧ (a.1.entry d v).ppn = f ∧
      (P.touch d v ∧ a.1.refCount f = 1 ∨ P.write d v ∧ (a.1.entry d v).w = true) := by
  have hne : ∀ r, ¬ (a.2.cls r).user → f ≠ r := fun r hr hfr => hr (hfr ▸ hu)
  cases h with
  | quiet h hm =>
    refine .inl (hm _ fun hh => ?_)
    exact Cls.held_not_user (hh ▸ hu)
  | procs _ => exact .inl rfl
  | pass r c hok hr hc' he href hh ho ht' hn hm => exact .inl (hm _ (hne r hr.not_user))
  | change hc' h hm => exact .inl (by rw [hm])
  | map ht' hv' htab hp' hh hcow h hm => exact .inl (by rw [hm])
  | vshare ht' hv' h0 htab hp' hf h hm => exact .inl (by rw [hm])
  | drop ht' hv' hsrc hp' hf0 h1 h hm => exact .inl (by rw [hm])
  | @last s s' g d₀ v₀ e ht' hv' hsrc hp' hf0 h1 hk hf he hr hm =>
    subst hsrc
    rcases eq_or_ne f (s.entry d₀ v₀).ppn with rfl | hq
    · exact .inr ⟨d₀, v₀, hv', rfl, .inl ⟨ht', h1⟩⟩
    · exact .inl (hm _ hq)
  | @untab s s' g d₀ k r ht' hsrc hr0 hk hf he hr hm =>
    exact .inl (hm _ (hne r (hI.tab_not_user hsrc hr0)))
  | @write s s' g d₀ v₀ ht' hv' hw' h hm =>
    rcases eq_or_ne f (s.entry d₀ v₀).ppn with rfl | hq
    · exact .inr ⟨d₀, v₀, hv', rfl, .inr ⟨ht', hw'⟩⟩
    · exact .inl (hm _ hq)

/-- The page behind an untouched entry keeps its bytes if nothing is written through the entry and it is not shared
memory. -/
theorem Ev.mem_of_untouched (h : Ev L P a b) (hI : Inv L a.1 a.2) (hX : Excl a.1 a.2)
    (ht : ¬ P.touch d v) (hw : ¬ P.write d v) (hv : v < NUPG) (hp : (a.1.entry d v).ppn ≠ 0)
    (hc : a.2.cls (a.1.entry d v).ppn ≠ .shm) :
    b.1.mem (a.1.entry d v).ppn = a.1.mem (a.1.entry d v).ppn := by
  rcases h.mem_step hI ((hI.named d v hv).resolve_left hp) with hm | ⟨d', v', hv', he, ⟨ht', h1⟩ | ⟨hw', hww⟩⟩
  · exact hm
  · obtain ⟨rfl, rfl⟩ := hI.unique hv hv' hp h1 he
    exact absurd ht' ht
  · rw [← he] at hp hc
    rcases hX.one d' v' hv' hww hp with hs | ⟨-, h1⟩
    · exact absurd hs hc
    · obtain ⟨rfl, rfl⟩ := hI.unique hv' hv hp h1 he.symm
      exact absurd hw' hw

/-! The same along chains of steps. -/

/-- What the steps keep without further conditions. -/
structure Sound (L : Linker) (A : ℕ → ℕ → Bool) (s : Kern) (g : Ghost) : Prop where
  inv : Inv L s g
  excl : Excl s g
  area : InArea A s g
  page : OnePage s g

theorem Sound.evs (hS : Sound L P.area a.1 a.2) (h : Evs L P a b) : Sound L P.area b.1 b.2 := by
  induction h with
  | refl => exact hS
  | tail _ h ih => exact ⟨h.inv ih.inv, ih.excl.step h ih.inv, ih.area.step h ih.inv, ih.page.step h ih.inv⟩

theorem Evs.ppn_of_untouched (h : Evs L P a b) (hI : Inv L a.1 a.2) (ht : ¬ P.touch d v) :
    (b.1.entry d v).ppn = (a.1.entry d v).ppn := by
  induction h with
  | refl => rfl
  | tail h' h ih => exact (h.ppn_of_untouched (Evs.inv h' hI) ht).trans ih

theorem Evs.cls_of_untouched (h : Evs L P a b) (hI : Inv L a.1 a.2) (ht : ¬ P.touch d v)
    (hv : v < NUPG) (hp : (a.1.entry d v).ppn ≠ 0) :
    b.2.cls (a.1.entry d v).ppn = a.2.cls (a.1.entry d v).ppn := by
  induction h with
  | refl => rfl
  | @tail m b h' h ih =>
    have hm := Evs.ppn_of_untouched h' hI ht
    rw [← ih, ← hm]
    exact h.cls_of_named (Evs.inv h' hI) hv (by rw [hm]; exact hp) (h.ppn_of_untouched (Evs.inv h' hI) ht)

theorem Evs.mem_of_untouched (h : Evs L P a b) (hS : Sound L P.area a.1 a.2) (ht : ¬ P.touch d v)
    (hw : ¬ P.write d v) (hv : v < NUPG) (hp : (a.1.entry d v).ppn ≠ 0)
    (hc : a.2.cls (a.1.entry d v).ppn ≠ .shm) :
    b.1.mem (a.1.entry d v).ppn = a.1.mem (a.1.entry d v).ppn := by
  induction h with
  | refl => rfl
  | @tail m b h' h ih =>
    have hm := Evs.ppn_of_untouched h' hS.inv ht
    have hcm := Evs.cls_of_untouched h' hS.inv ht hv hp
    have hSm := hS.evs h'
    rw [← ih, ← hm]
    refine h.mem_of_untouched hSm.inv hSm.excl ht hw hv (by rw [hm]; exact hp) ?_
    rw [hm, hcm]
    exact hc

/-- A frame of the kernel keeps its class and its bytes, unless it may pass to another use or is a page table that goes. -/
theorem Ev.kernel_step (h : Ev L P a b) (hI : Inv L a.1 a.2) (hu : ¬ (a.2.cls f).user) (h0 : f ≠ 0) :
    (b.2.cls f = a.2.cls f ∧ b.1.mem f = a.1.mem f) ∨ P.passes a.2 f ∨
      ∃ d k, a.2.cls f = .own (.tab d k) ∧ ∀ v, v / NPTENTRIES = k → P.touch d v := by
  have hne : ∀ d v, v < NUPG → f ≠ (a.1.entry d v).ppn := by
    rintro d v hv rfl
    exact hu ((hI.named d v hv).resolve_left h0)
  cases h with
  | @quiet s s' g h hm =>
    by_cases hh : g.cls f = .held
    · exact .inr (.inl (.inr (.inl hh)))
    · exact .inl ⟨rfl, hm f hh⟩
  | procs _ => exact .inl ⟨rfl, rfl⟩
  | pass r c hok hr hc he href hh ho ht hn hm =>
    rcases eq_or_ne f r with rfl | hq
    · exact .inr (.inl hr)
    · exact .inl ⟨Ghost.set_ne _ _ hq, hm f hq⟩
  | change hc h hm => exact .inl ⟨rfl, by rw [hm]⟩
  | @map s s' g d v e ht hv htab hp hh hcow h hm =>
    rcases eq_or_ne f e.ppn with rfl | hq
    · exact .inr (.inl (.inr (.inl hh)))
    · exact .inl ⟨by rw [Ghost.set_ne _ _ hq, Ghost.lose_cls], by rw [hm]⟩
  | vshare ht hv h0 htab hp hf h hm => exact .inl ⟨by rw [Ghost.lose_cls], by rw [hm]⟩
  | drop ht hv hsrc hp hf0 h1 h hm => exact .inl ⟨rfl, by rw [hm]⟩
  | @last s s' g d v e ht hv hsrc hp hf0 h1 hk hf he hr hm =>
    subst hsrc
    exact .inl ⟨Ghost.set_ne _ _ (hne d v hv), hm f (hne d v hv)⟩
  | @untab s s' g d k r ht hsrc hr0 hk hf he hr hm =>
    rcases eq_or_ne f r with rfl | hq
    · exact .inr (.inr ⟨d, k, hI.tab_cls hsrc hr0, ht⟩)
    · exact .inl ⟨Ghost.set_ne _ _ hq, hm f hq⟩
  | @write s s' g d v ht hv hw h hm => exact .inl ⟨rfl, hm f (hne d v hv)⟩

/-- A frame that is not a page directory has no entries. -/
theorem Inv.entry_of_no_dir {s : Kern} {g : Ghost} (hI : Inv L s g) (hd : s.dir d = false) : s.entry d v = {} := by
  refine entry_of_no_tab ?_
  by_contra h
  rw [(hI.tab _ _ h).1] at hd
  simp at hd

/-- Steps that neither touch nor write an entry of the page directories at the start leave alone the frames that were in
use then. -/
theorem Evs.mem_of_old (h : Evs L P a b) (hS : Sound L P.area a.1 a.2)
    (hP : ∀ d v, P.touch d v ∨ P.write d v → a.1.dir d = false) (h0 : f ≠ 0) (hfree : a.2.cls f ≠ .own .free)
    (hheld : a.2.cls f ≠ .held) : b.1.mem f = a.1.mem f := by
  -- the entries that the steps may change come to name it only if it is a vdso page
  suffices hall : b.2.cls f = a.2.cls f ∧ b.1.mem f = a.1.mem f ∧ ∀ d v, v < NUPG → P.touch d v ∨ P.write d v →
      (b.1.entry d v).ppn = f → a.2.cls f = .own .vdso from hall.2.1
  induction h with
  | refl =>
    refine ⟨rfl, rfl, fun d v _ hp he => ?_⟩
    rw [hS.inv.entry_of_no_dir (hP d v hp)] at he
    exact absurd he.symm h0
  | @tail m b h' h ih =>
    obtain ⟨hc, hm, hn⟩ := ih
    have hSm := hS.evs h'
    by_cases hu : (m.2.cls f).user
    · have hvdso : ∀ d v, v < NUPG → P.touch d v ∨ P.write d v → (m.1.entry d v).ppn = f →
          m.1.refCount f ≠ 1 ∧ (m.1.entry d v).w = false := by
        rintro d v hv hp rfl
        have hcv := hc.trans (hn d v hv hp rfl)
        constructor
        · intro h1
          have := (hSm.inv.cls_of_last hv h0 h1).1
          simp [hcv] at this
        · by_contra hw
          have := hSm.excl.one d v hv (by simpa using hw) h0
          simp [hcv] at this
      have hcls : b.2.cls f = a.2.cls f := by
        rcases h.cls_step hSm.inv hu with he | ⟨d, v, hv, ht, he, h1, -⟩
        · exact he.trans hc
        · exact absurd h1 (hvdso d v hv (.inl ht) he).1
      refine ⟨hcls, ?_, fun d v hv hp he => ?_⟩
      · rcases h.mem_step hSm.inv hu with he | ⟨d, v, hv, he, ⟨ht, h1⟩ | ⟨ht, hw⟩⟩
        · exact he.trans hm
        · exact absurd h1 (hvdso d v hv (.inl ht) he).1
        · rw [(hvdso d v hv (.inr ht) he).2] at hw
          cases hw
      · rcases h.entry_step (d := d) (v := v) hSm.inv with
          he' | ⟨hch, -, -⟩ | ⟨-, hh, -⟩ | ⟨-, -, he', hcv⟩ | ⟨-, he'⟩
        · exact hn d v hv hp (he' ▸ he)
        · exact hn d v hv hp ((hch.ppn hv).symm.trans he)
        · rw [he, hc] at hh
          exact absurd hh hheld
        · rw [he'] at he
          rw [← hcls, ← he]
          exact hcv
        · rw [he'] at he
          exact absurd he.symm h0
    · have hkeep : b.2.cls f = m.2.cls f ∧ b.1.mem f = m.1.mem f := by
        refine (h.kernel_step hSm.inv hu h0).resolve_right ?_
        rintro ((hp | hp | ⟨hp, ht⟩) | ⟨d, k, hp, ht⟩) <;> rw [hc] at hp
        · exact hfree hp
        · exact hheld hp
        · have hd : a.1.dir f = true := (hS.inv.holds .dir f).2 hp
          rw [hP f 0 (.inl (ht 0))] at hd
          cases hd
        · have htab := ((hS.inv.holds (.tab d k) f).2 hp).1
          have hd := (hS.inv.tab d k (htab ▸ h0)).1
          rw [hP d (k * NPTENTRIES) (.inl (ht _ (Nat.mul_div_cancel _ (by decide))))] at hd
          cases hd
      refine ⟨hkeep.1.trans hc, hkeep.2.trans hm, fun d v hv _ he => absurd ?_ hu⟩
      rw [← hkeep.1, ← he]
      exact ((h.inv hSm.inv).named d v hv).resolve_left (he ▸ h0)

end Xv6
