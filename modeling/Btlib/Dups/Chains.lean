import Btlib.Dups.Insert
import Btlib.Theory.Links

namespace Btlib

open Links

variable [Build] {s s' s'' : St} {fs fs' D D' os : List Int} {n n' : Int → Nat}
  {live live' : Finset (Int × Nat)} {ent ent' : Int × Nat → DKey} {b i j val : Int} {d : DKey}
  {p q t : Int × Nat} {ps us : List (Int × Nat)} {v : Int} {vs : List Int} {k key : Key} {ke ke' : KeyEnt}
  {E : Op → Disk → Prop}

-- A duplicate of the key `k`.
def Cell (live : Finset (Int × Nat)) (ent : Int × Nat → DKey) (k : Key) (p : Int × Nat) (v nx pv : Int) :
    Prop :=
  p ∈ live ∧ ent p = ⟨k,false,v,nx,pv⟩

-- The values of a key: the one of a plain entry, or those of the chain at `ps`.
def Chained (live : Finset (Int × Nat)) (ent : Int × Nat → DKey) (ke : KeyEnt) (ps : List (Int × Nat))
    (vs : List Int) : Prop :=
  ps = [] ∧ ke.dup = ZNULL ∧ vs = [ke.val] ∨
    ps ≠ [] ∧ ps.Nodup ∧ ke.val = front addr ZNULL ps ∧ ke.dup = back addr ZNULL ps ∧
      Linked (Cell live ent ke.key) addr ZNULL ZNULL ps vs

-- The duplicate address is that of the value number `i` of a key with its duplicates at `ps`.
def OnDup (s : St) (ps : List (Int × Nat)) (i : Nat) : Prop :=
  ps = [] ∧ s.ctx.lf.draddr = ZNULL ∨ ∃ us p ws, ps = us ++ p :: ws ∧ us.length = i ∧ s.ctx.lf.draddr = addr p

-- The duplicates of other keys than `k` stay.
def Frame (k : Key) (live : Finset (Int × Nat)) (ent : Int × Nat → DKey) (live' : Finset (Int × Nat))
    (ent' : Int × Nat → DKey) : Prop :=
  ∀ p ∈ live, (ent p).key ≠ k → p ∈ live' ∧ ent' p = ent p

omit [Build] in
theorem Frame.refl (k : Key) (live : Finset (Int × Nat)) (ent : Int × Nat → DKey) : Frame k live ent live ent :=
  fun _ hp _ => ⟨hp,rfl⟩

omit [Build] in
theorem Frame.trans {live'' : Finset (Int × Nat)} {ent'' : Int × Nat → DKey} (h : Frame k live ent live' ent')
    (h' : Frame k live' ent' live'' ent'') : Frame k live ent live'' ent'' := by
  intro p hp hk
  obtain ⟨hp1,he1⟩ := h p hp hk
  obtain ⟨hp2,he2⟩ := h' p hp1 (he1 ▸ hk)
  exact ⟨hp2,he2.trans he1⟩

omit [Build] in
theorem Frame.insert (hp : p ∉ live) (d : DKey) :
    Frame k live ent (insert p live) (Function.update ent p d) := fun _ hq _ =>
  ⟨Finset.mem_insert_of_mem hq,Function.update_of_ne (ne_of_mem_of_not_mem hq hp) _ _⟩

omit [Build] in
theorem Frame.update (hk : (ent p).key = k) (d : DKey) :
    Frame k live ent live (Function.update ent p d) := fun _ hq hne =>
  ⟨hq,Function.update_of_ne (ne_of_apply_ne (fun r => (ent r).key) (hk.symm ▸ hne)) _ _⟩

omit [Build] in
theorem Frame.erase (hk : (ent p).key = k) : Frame k live ent (live.erase p) ent := fun _ hq hne =>
  ⟨Finset.mem_erase_of_ne_of_mem (ne_of_apply_ne (fun r => (ent r).key) (hk.symm ▸ hne)) hq,rfl⟩

theorem Chained.frame (h : Chained live ent ke ps vs) (hf : Frame k live ent live' ent') (hne : ke.key ≠ k) :
    Chained live' ent' ke ps vs := by
  rcases h with h | ⟨h1,h2,h3,h4,h5⟩
  · exact Or.inl h
  · refine Or.inr ⟨h1,h2,h3,h4,h5.congr fun p _ v nx pv hp => ?_⟩
    obtain ⟨hlive,hent⟩ := hf p hp.1 (by rw [hp.2]; exact hne)
    exact ⟨hlive,hent.trans hp.2⟩

theorem Chained.length_eq (h : Chained live ent ke ps vs) (hne : ps ≠ []) : ps.length = vs.length := by
  obtain ⟨-,-,-,-,hl⟩ := h.resolve_left fun hc => hne hc.1
  exact hl.length_eq

theorem Chained.ne_nil (h : Chained live ent ke ps vs) : vs ≠ [] := by
  rcases h with ⟨-,-,rfl⟩ | ⟨h1,-,-,-,h5⟩
  · exact List.cons_ne_nil _ _
  · cases ps with
    | nil => exact absurd rfl h1
    | cons p ps =>
        obtain ⟨v,ws,rfl,-⟩ := h5
        exact List.cons_ne_nil _ _

-- What becomes of the other blocks when the entry at `i` of the block `b` turns into `ke`.
structure Edit (s s' : St) (os : List Int) (b i : Int) (ke : KeyEnt) : Prop where
  ctx : s'.ctx = { s.ctx with super := s'.ctx.super, lf := s'.ctx.lf }
  root : s'.ctx.super.scroot = s.ctx.super.scroot
  mode : s'.ctx.super.smode = s.ctx.super.smode
  blk : s'.ctx.lf.lfblk = s.ctx.lf.lfblk
  pos : s'.ctx.lf.lfpos = s.ctx.lf.lfpos
  lfkey : s'.ctx.lf.lfkey = s.ctx.lf.lfkey
  block : ∀ c ∈ os, ∃ v, s'.disk.block c =
    { (if c = b then (s.disk.block c).setKey i ke else s.disk.block c) with nxdup := v }

omit [Build] in
theorem Block.setKey_self (blk : Block) (i : Int) : blk.setKey i (blk.keyblk i) = blk := by
  simp [Block.setKey]

omit [Build] in
theorem Apart.edit (h : Apart s s' os) (he : (s.disk.block b).keyblk i = ke) : Edit s s' os b i ke := by
  refine ⟨?_,h.root,h.mode,by rw [h.ctx],by rw [h.ctx],by rw [h.ctx],fun c hc => ?_⟩
  · rw [h.ctx]
  · obtain ⟨v,hv⟩ := h.block c hc
    refine ⟨v,?_⟩
    rw [hv]
    split
    · rename_i hcb
      rw [← he, hcb, Block.setKey_self]
    · rfl

omit [Build] in
theorem Apart.trans_edit (h : Apart s s' os) (h' : Edit s' s'' os b i ke) : Edit s s'' os b i ke := by
  refine ⟨?_,h'.root.trans h.root,h'.mode.trans h.mode,by rw [h'.blk, h.ctx],by rw [h'.pos, h.ctx],
    by rw [h'.lfkey, h.ctx],fun c hc => ?_⟩
  · rw [h'.ctx, h.ctx]
  · obtain ⟨v,hv⟩ := h.block c hc
    obtain ⟨w,hw⟩ := h'.block c hc
    refine ⟨w,?_⟩
    rw [hw, hv]
    split <;> rfl

omit [Build] in
theorem Edit.ofLf {lf : Lf} (h : Edit { s with ctx.lf := lf } s' os b i ke) (hblk : lf.lfblk = s.ctx.lf.lfblk)
    (hpos : lf.lfpos = s.ctx.lf.lfpos) (hkey : lf.lfkey = s.ctx.lf.lfkey) : Edit s s' os b i ke :=
  ⟨h.ctx,h.root,h.mode,h.blk.trans hblk,h.pos.trans hpos,h.lfkey.trans hkey,h.block⟩

namespace Dups

theorem withCtx (h : Dups s fs D os n live ent) {c : Ctx} (hc : c.super = s.ctx.super) :
    Dups { s with ctx := c } fs D os n live ent := by
  refine ⟨h.store.withCtx hc,h.size,h.super,?_,h.block,h.nxblk,h.nblks,?_,?_,h.seg⟩
  · rw [hc]
    exact h.root
  · simp only [hc]
    exact h.head
  · simp only [hc]
    exact h.data

theorem withLf (h : Dups s fs D os n live ent) (lf : Lf) : Dups { s with ctx.lf := lf } fs D os n live ent :=
  h.withCtx rfl

theorem exec_getkeyent (h : Dups s fs D os n live ent) (hb : b ∈ os) :
    exec (getkeyent b i) s = .done (some ((s.disk.block b).keyblk i), s) := by
  have hhas : s.disk.Has b := h.store.has_used (List.mem_append_right _ hb)
  simp only [getkeyent, exec_bind, exec_brdblk, Disk.read_eq hhas, Prog.Outcome.bind_done, exec_pure]

theorem setKey (h : Dups s fs D os n live ent) (hb : b ∈ os) (i : Int) (ke : KeyEnt) :
    Dups ⟨s.ctx,s.disk.put b ((s.disk.block b).setKey i ke)⟩ fs D os n live ent ∧
      Edit s ⟨s.ctx,s.disk.put b ((s.disk.block b).setKey i ke)⟩ os b i ke := by
  have hold : ∀ c, c ≠ b → (s.disk.put b ((s.disk.block b).setKey i ke)).block c = s.disk.block c := fun c hc => by
    rw [Disk.block_put, Function.update_of_ne hc]
  have hself : (s.disk.put b ((s.disk.block b).setKey i ke)).block b = (s.disk.block b).setKey i ke := by
    rw [Disk.block_put, Function.update_self]
  have hne : ∀ c ∈ D, c ≠ b := fun c hc hcb => h.not_mem_os hc (hcb ▸ hb)
  refine ⟨h.keep (h.store.put (List.mem_append_right _ hb) _) rfl rfl (fun c => ?_) (fun c hc => ?_)
    fun p hp => ?_,rfl,rfl,rfl,rfl,rfl,rfl,fun c _ => ⟨(s.disk.block c).nxdup,?_⟩⟩
  · dsimp only
    by_cases hcb : c = b
    · rw [hcb, hself]
      exact ⟨rfl,rfl,rfl⟩
    · rw [hold c hcb]
      exact ⟨rfl,rfl,rfl⟩
  · dsimp only
    rw [hold c (hne c hc)]
    exact h.block c hc
  · obtain ⟨hD,hlt,he,hf⟩ := h.seg p hp
    dsimp only
    rw [hold _ (hne _ hD)]
    exact ⟨hD,hlt,he,hf⟩
  · dsimp only
    by_cases hcb : c = b
    · rw [hcb, hself, if_pos rfl]
      rfl
    · rw [hold c hcb, if_neg hcb]

theorem exec_putkeyent (h : Dups s fs D os n live ent) (hb : b ∈ os) (i : Int) (ke : KeyEnt) :
    exec (putkeyent b i ke) s = .done (0, ⟨s.ctx,s.disk.put b ((s.disk.block b).setKey i ke)⟩) := by
  have hhas : s.disk.Has b := h.store.has_used (List.mem_append_right _ hb)
  simp only [putkeyent, exec_bind, exec_brdblk, Disk.read_eq hhas, Prog.Outcome.bind_done, exec_wr, exec_pure]

theorem addr_ne_null (h : Dups s fs D os n live ent) (hp : p ∈ live) : addr p ≠ ZNULL := by
  have := h.addr_pos hp
  change addr p ≠ -1
  omega

end Dups

theorem fits_null (hb : Sized) : Fits ZNULL :=
  fits_of_le hb.word le_rfl (le_trans (by decide) (le_trans (Int.natCast_nonneg ZBLKSZ) hb.block))

end Btlib
