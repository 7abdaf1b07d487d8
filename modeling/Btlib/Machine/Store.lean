import Btlib.Machine.Steps

namespace Btlib

-- The chain of free blocks from the block number `p` on.
def FreeChain (D : Int → Block) : Int → List Int → Prop
  | p, [] => p = ZNULL
  | p, b :: fs => p = b ∧ (D b).btype = ZFREE ∧ FreeChain D (D b).nxblk fs

theorem FreeChain.congr {D D' : Int → Block} {p : Int} {fs : List Int} (h : FreeChain D p fs)
    (hD : ∀ b ∈ fs, D' b = D b) : FreeChain D' p fs := by
  induction fs generalizing p with
  | nil => exact h
  | cons b fs ih =>
      obtain ⟨rfl,htype,hrest⟩ := h
      refine ⟨rfl,?_,?_⟩
      · rw [hD p List.mem_cons_self]
        exact htype
      · rw [hD p List.mem_cons_self]
        exact ih hrest fun c hc => hD c (List.mem_cons_of_mem _ hc)

-- `fs` are the free blocks of a file, and `used` blocks that are not free, each named once.
structure Store (s : St) (fs used : List Int) : Prop where
  chain : FreeChain s.disk.block s.ctx.super.sfreep fs
  nodup : (fs ++ used).Nodup
  has : ∀ b ∈ fs ++ used, s.disk.Has b
  size : s.ctx.super.sblkmx = s.disk.size
  size_nonneg : 0 ≤ s.disk.size

namespace Store

variable {s s' : St} {fs used used' : List Int} {b : Int}

theorem has_used (h : Store s fs used) (hb : b ∈ used) : s.disk.Has b :=
  h.has b (List.mem_append_right _ hb)

theorem nodup_used (h : Store s fs used) : used.Nodup := (List.nodup_append.1 h.nodup).2.1

theorem not_mem_free (h : Store s fs used) (hb : b ∈ used) : b ∉ fs := fun hf =>
  (List.nodup_append.1 h.nodup).2.2 b hf b hb rfl

theorem perm (h : Store s fs used) (hp : used.Perm used') : Store s fs used' where
  chain := h.chain
  nodup := (hp.append_left fs).nodup_iff.1 h.nodup
  has c hc := h.has c ((hp.append_left fs).mem_iff.2 hc)
  size := h.size
  size_nonneg := h.size_nonneg

theorem transfer (h : Store s fs used) (hsize : s'.disk.size = s.disk.size)
    (hblock : ∀ c ∈ fs, s'.disk.block c = s.disk.block c)
    (hfree : s'.ctx.super.sfreep = s.ctx.super.sfreep)
    (hmax : s'.ctx.super.sblkmx = s.ctx.super.sblkmx) : Store s' fs used where
  chain := by
    rw [hfree]
    exact h.chain.congr hblock
  nodup := h.nodup
  has c hc := by
    have := h.has c hc
    simpa only [Disk.Has, hsize] using this
  size := by rw [hmax, hsize, h.size]
  size_nonneg := by
    rw [hsize]
    exact h.size_nonneg

theorem put (h : Store s fs used) (hb : b ∈ used) (blk : Block) :
    Store { s with disk := s.disk.put b blk } fs used :=
  h.transfer rfl (fun _ hc => Function.update_of_ne
    (ne_of_mem_of_not_mem hc (h.not_mem_free hb)) _ _) rfl rfl

theorem withCtx (h : Store s fs used) {c : Ctx} (hc : c.super = s.ctx.super) :
    Store { s with ctx := c } fs used :=
  h.transfer rfl (fun _ _ => rfl) (by rw [← hc]) (by rw [← hc])

end Store

-- The blocks of `d'` have addresses, if those of `d` have.
def Disk.Reaches [Build] (d d' : Disk) : Prop :=
  0 < ZBPW → (ZBLKSZ : Int) ≤ BTINT_MAX → d.size * ZBLKSZ ≤ BTINT_MAX → d'.size * ZBLKSZ ≤ BTINT_MAX

theorem Disk.Reaches.refl [Build] (d : Disk) : d.Reaches d := fun _ _ h => h

theorem Disk.Reaches.trans [Build] {d d' d'' : Disk} (h : d.Reaches d') (h' : d'.Reaches d'') : d.Reaches d'' :=
  fun hw hb hd => h' hw hb (h hw hb hd)

theorem Disk.Reaches.of_size [Build] {d d' : Disk} (h : d'.size = d.size) : d.Reaches d' := fun _ _ hd => h ▸ hd

-- What becomes of a state when it gives the block `b` away.
structure Gave [Build] (s : St) (used : List Int) (b : Int) (fs' : List Int) (s' : St) : Prop where
  ctx : s'.ctx = { s.ctx with super := s'.ctx.super }
  root : s'.ctx.super.scroot = s.ctx.super.scroot
  mode : s'.ctx.super.smode = s.ctx.super.smode
  block : s'.disk.block = s.disk.block
  store : Store s' fs' (b :: used)
  reaches : s.disk.Reaches s'.disk

section Alloc

variable [Build] {s : St} {fs used : List Int} {E : Op → Disk → Prop}

-- No block is to be had: none is free, and the file is at its limit.
def NoBlock (o : Op) (d : Disk) : Prop := (∃ code, o = .report "BGTFRE" code) ∧ BTINT_MAX ≤ (d.size + 1) * ZBLKSZ

theorem le_of_wrap_ge {x : Int} (h0 : 0 ≤ x) (h : wrap x < 0 ∨ BTINT_MAX ≤ wrap x) : BTINT_MAX ≤ x := by
  by_contra hlt
  have hpow : (2 : Int) ^ (8 * ZBPW - 1) * 2 = 2 ^ (8 * ZBPW) ∨ (2 : Int) ^ (8 * ZBPW - 1) = 1 := by
    rcases Nat.eq_zero_or_pos (8 * ZBPW) with hz | hpos
    · exact Or.inr (by rw [hz]; rfl)
    · exact Or.inl (by rw [← pow_succ, Nat.sub_add_cancel hpos])
  have hmax : BTINT_MAX = 2 ^ (8 * ZBPW - 1) - 1 := rfl
  have hsame : wrap x = x := by
    rw [wrap, Int.bmod_eq_of_le_mul_two] <;> push_cast <;> omega
  omega

theorem Store.noBlock (h : Store s fs used) {code : Int}
    (hfull : wrap (s.ctx.super.sblkmx * ZBLKSZ + ZBLKSZ) < 0 ∨ BTINT_MAX ≤ wrap (s.ctx.super.sblkmx * ZBLKSZ + ZBLKSZ)) :
    NoBlock (.report "BGTFRE" code) s.disk := by
  refine ⟨⟨_,rfl⟩,?_⟩
  have hmul := Int.mul_nonneg h.size_nonneg (Int.natCast_nonneg ZBLKSZ)
  rw [h.size] at hfull
  rw [Int.add_mul, Int.one_mul]
  exact le_of_wrap_ge (by omega) hfull

theorem le_of_wrap {x : Int} (hw : 0 < ZBPW) (hb : (ZBLKSZ : Int) ≤ BTINT_MAX) (h0 : 0 ≤ x) (h1 : x ≤ BTINT_MAX + ZBLKSZ)
    (hx : 0 ≤ wrap x) : x ≤ BTINT_MAX := by
  have hpow : (2 : Int) ^ (8 * ZBPW) = 2 * 2 ^ (8 * ZBPW - 1) := by
    rw [← pow_succ', Nat.sub_add_cancel (by omega)]
  have hcast : ((2 ^ (8 * ZBPW) : Nat) : Int) = 2 * 2 ^ (8 * ZBPW - 1) := by
    rw [← hpow, Int.natCast_pow]
    rfl
  have hmax : BTINT_MAX = 2 ^ (8 * ZBPW - 1) - 1 := rfl
  have hlt : x < ((2 ^ (8 * ZBPW) : Nat) : Int) := by omega
  rw [wrap, Int.bmod_def, Int.emod_eq_of_lt h0 hlt] at hx
  split at hx <;> omega

theorem Store.reaches (h : Store s fs used) (hno : ¬ (wrap (s.ctx.super.sblkmx * ZBLKSZ + ZBLKSZ) < 0 ∨
    BTINT_MAX ≤ wrap (s.ctx.super.sblkmx * ZBLKSZ + ZBLKSZ))) {d : Disk} (hd : d.size = s.disk.size + 1) :
    s.disk.Reaches d := by
  intro hw hb hsize
  have hmul : 0 ≤ s.disk.size * (ZBLKSZ : Int) := Int.mul_nonneg h.size_nonneg (Int.natCast_nonneg _)
  have hz := Int.natCast_nonneg ZBLKSZ
  rw [hd, Int.add_mul, Int.one_mul]
  rw [h.size] at hno
  exact le_of_wrap hw hb (by omega) (by omega) (not_lt.1 (not_or.1 hno).1)

theorem ends_bgtfre (h : Store s fs used) (hE : ∀ o d, NoBlock o d → E o d) :
    (exec bgtfre s).Ends E fun r => ∃ fs', Gave s used r.1 fs' r.2 ∧
      (fs = r.1 :: fs' ∨ fs = [] ∧ fs' = [] ∧ r.1 = s.disk.size) := by
  simp only [bgtfre, exec_bind, exec_get, Prog.Outcome.bind_done, exec_ite]
  cases fs with
  | nil =>
      have hp : s.ctx.super.sfreep = ZNULL := h.chain
      rw [if_pos hp]
      split
      · rename_i hfull
        rw [exec_bterr_refused _ _ _ _ (Or.inl rfl)]
        exact hE _ _ (h.noBlock hfull)
      · rename_i hno
        have hgrow : exec (ask (.grow s.ctx.super.sblkmx)) s =
            .done (Grown.ok, { s with disk := s.disk.grow s.ctx.super.sblkmx }) := rfl
        simp only [exec_bind, hgrow, Prog.Outcome.bind_done, exec_setSuper, exec_pure,
          Prog.Outcome.ends_done]
        have hsize : (s.disk.grow s.ctx.super.sblkmx).size = s.disk.size + 1 := by
          simp only [Disk.grow, h.size]
          omega
        refine ⟨[],⟨rfl,rfl,rfl,rfl,⟨h.chain,?_,?_,?_,?_⟩,h.reaches hno hsize⟩,Or.inr ⟨trivial,rfl,h.size⟩⟩
        · refine List.nodup_cons.2 ⟨fun hmem => ?_,h.nodup_used⟩
          have := (h.has_used hmem).2
          rw [h.size] at this
          exact lt_irrefl _ this
        · intro b hb
          simp only [List.nil_append, List.mem_cons] at hb
          simp only [Disk.Has, hsize]
          rcases hb with rfl | hb
          · rw [h.size]
            have := h.size_nonneg
            omega
          · have := h.has_used hb
            simp only [Disk.Has] at this
            omega
        · change s.ctx.super.sblkmx + 1 = (s.disk.grow s.ctx.super.sblkmx).size
          rw [hsize, h.size]
        · simp only [hsize]
          have := h.size_nonneg
          omega
  | cons b fs =>
      obtain ⟨hp,htype,hchain⟩ := h.chain
      have hb : s.disk.Has b := h.has b List.mem_cons_self
      have hne : s.ctx.super.sfreep ≠ ZNULL := by
        rw [hp]
        have := hb.1
        change b ≠ -1
        omega
      rw [if_neg hne]
      simp only [exec_bind, hp, exec_brdblk, Disk.read_eq hb, Prog.Outcome.bind_done,
        exec_bgtinf hb, Block.getInf_ZBTYPE, htype, ne_eq, not_true_eq_false, if_false,
        Block.getInf_ZNXBLK, exec_setSuper, exec_pure, Prog.Outcome.ends_done, exec_ite]
      refine ⟨fs,⟨rfl,rfl,rfl,rfl,⟨hchain,?_,?_,h.size,h.size_nonneg⟩,.refl _⟩,Or.inl rfl⟩
      · exact (List.perm_middle.nodup_iff).2 h.nodup
      · intro c hc
        exact h.has c ((List.perm_middle.mem_iff).1 hc)

end Alloc

end Btlib
