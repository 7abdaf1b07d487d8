import Btlib.Dups.Whole
import Btlib.Mend.Delete

namespace Btlib

open Multiway Links

variable [Build] {n m m' : Nat} {s s' s0 : St} {fs fs' D D' os : List Int} {nd nd' : Int → Nat}
  {live live' : Finset (Int × Nat)} {ent ent' : Int × Nat → DKey} {μ : Key → List Int} {t : KeyTree m} {t' : KeyTree m'}
  {blk : Int} {l r : List KeyEnt} {e e' : KeyEnt} {k key : Key} {v : Int} {vs : List Int} {ps : List (Int × Nat)}

-- A root with duplicates: `μ` are the values of its keys, in the entry of a key or in the chain behind it.
structure Listed (s : St) (t : KeyTree m) (fs D os : List Int) (nd : Int → Nat) (live : Finset (Int × Nat))
    (ent : Int × Nat → DKey) (μ : Key → List Int) : Prop where
  formed : WellFormed s t fs (D ++ os)
  whole : Whole s t fs D os nd live ent
  chained : ∀ e ∈ t.inorder, ∃ ps, Chained live ent e ps (μ e.key)
  absent : ∀ k, (∀ e ∈ t.inorder, e.key ≠ k) → μ k = []
  fits : ∀ k, ∀ v ∈ μ k, Fits v

theorem Listed.withCtx {c : Ctx} (h : Listed s t fs D os nd live ent μ) (hc : c.super = s.ctx.super) :
    Listed { s with ctx := c } t fs D os nd live ent μ := by
  refine ⟨h.formed.withCtx hc,⟨h.whole.dups.withCtx hc,?_,?_⟩,h.chained,h.absent,h.fits⟩
  · simp only [hc]
    exact h.whole.super
  · simp only [hc]
    exact h.whole.data

theorem Listed.ofSpot (hb : Sized) (h : Listed s t fs D os nd live ent μ) (hs : Spot s s' t' fs' (D ++ os) ⟨t,fs,k⟩) :
    Listed s' t' fs' D os nd live ent μ := by
  have hin : t'.inorder = t.inorder := hs.inorder
  refine ⟨h.formed.ofSpot hs,h.whole.ofIndex hs.index hs.pos hs.keeps (h.whole.reached hb hs.reaches),?_,?_,h.fits⟩
  · rw [hin]
    exact h.chained
  · rw [hin]
    exact h.absent

theorem Listed.values (h : Listed s t fs D os nd live ent μ) (he : e ∈ t.inorder) :
    ∃ v vs ps, μ e.key = v :: vs ∧ Chained live ent e ps (v :: vs) := by
  obtain ⟨ps,hc⟩ := h.chained e he
  obtain ⟨v,vs,hvs⟩ := List.exists_cons_of_ne_nil hc.ne_nil
  exact ⟨v,vs,ps,hvs,hvs ▸ hc⟩

section Turn

variable {p : KeyPath (n + 1) m} {ks : List (KeyTree n)}

omit [Build] in
theorem ids_entry (p : KeyPath (n + 1) m) (e' : KeyEnt) : (p.plug (BTree.node blk (l ++ e' :: r) ks)).ids =
    (p.plug (BTree.node blk (l ++ e :: r) ks)).ids := p.ids_plug_congr rfl

-- The tree once an entry has changed and its key has not, whatever has happened to the duplicates.
theorem Edit.formed (he : Edit s s' ((p.plug (BTree.node blk (l ++ e :: r) ks)).ids ++ os) blk l.length e')
    (h : WellFormed s (p.plug (BTree.node blk (l ++ e :: r) ks)) fs (D ++ os)) (hkey : e'.key = e.key)
    (hd : Dups s' fs' D' ((p.plug (BTree.node blk (l ++ e :: r) ks)).ids ++ os) nd' live' ent') :
    WellFormed s' (p.plug (BTree.node blk (l ++ e' :: r) ks)) fs' (D' ++ os) := by
  have hmid : Index ⟨s.ctx,s.disk.put blk ((s.disk.block blk).setKey l.length e')⟩
      (p.plug (BTree.node blk (l ++ e' :: r) ks)) fs (D ++ os) := h.index.replace rfl rfl rfl
  refine h.replace hkey (hmid.nxdup he.root (hd.store.perm ?_) fun b hb => ?_)
  · rw [ids_entry (e := e) p e', ← List.append_assoc, ← List.append_assoc]
    exact List.perm_append_comm.append_right os
  · obtain ⟨v,hv⟩ := he.block b (List.mem_append_left _ (ids_entry (e := e) p e' ▸ hb))
    refine ⟨v,hv.trans ?_⟩
    rw [Disk.block_put]
    by_cases hbb : b = blk
    · rw [if_pos hbb, hbb, Function.update_self]
    · rw [if_neg hbb, Function.update_of_ne hbb]

omit [Build] in
theorem Edit.root_info {b i : Int} (he : Edit s s' os b i e') (hr : s.ctx.super.scroot ∈ os) :
    (s'.disk.block s'.ctx.super.scroot).nxblk = (s.disk.block s.ctx.super.scroot).nxblk ∧
      (s'.disk.block s'.ctx.super.scroot).misc = (s.disk.block s.ctx.super.scroot).misc := by
  obtain ⟨v,hv⟩ := he.block _ hr
  rw [he.root, hv]
  split <;> exact ⟨rfl,rfl⟩

theorem Edit.whole (he : Edit s s' ((p.plug (BTree.node blk (l ++ e :: r) ks)).ids ++ os) blk l.length e')
    (h : Whole s (p.plug (BTree.node blk (l ++ e :: r) ks)) fs D os nd live ent)
    (hd : Dups s' fs' D' ((p.plug (BTree.node blk (l ++ e :: r) ks)).ids ++ os) nd' live' ent') :
    Whole s' (p.plug (BTree.node blk (l ++ e' :: r) ks)) fs' D' os nd' live' ent' := by
  refine ⟨ids_entry (e := e) p e' ▸ hd,?_,?_⟩
  · rw [he.root]
    exact h.super
  · rw [(he.root_info h.dups.root).1]
    exact h.data

theorem Listed.turn (h : Listed s (p.plug (BTree.node blk (l ++ e :: r) ks)) fs D os nd live ent μ)
    (ht : Turns s s' ((p.plug (BTree.node blk (l ++ e :: r) ks)).ids ++ os) blk l.length live ent e vs fs' D' nd' live' ent'
      e' ps) (hvs : ∀ v ∈ vs, Fits v) : Listed s' (p.plug (BTree.node blk (l ++ e' :: r) ks)) fs' D' os nd' live' ent'
        (Function.update μ e.key vs) := by
  obtain ⟨A,B,hin⟩ := h.formed.placed.around
  have hsort := hin e ▸ h.formed.sorted
  have hother : ∀ x ∈ A ++ B, x.key ≠ e.key := fun x hx => by
    rcases List.mem_append.1 hx with hx | hx
    · exact (hsort.lt hx List.mem_cons_self).ne
    · exact ((List.pairwise_cons.1 hsort.right).1 x hx).ne'
  have hmem : ∀ x, x ∈ A ++ B → x ∈ (p.plug (BTree.node blk (l ++ e :: r) ks)).inorder := fun x hx => by
    rw [hin, List.perm_middle.mem_iff]
    exact List.mem_cons_of_mem e hx
  refine ⟨ht.edit.formed h.formed ht.key ht.dups,ht.edit.whole h.whole ht.dups,?_,fun k hk => ?_,fun k => ?_⟩
  · rw [hin]
    intro x hx
    rw [List.perm_middle.mem_iff, List.mem_cons] at hx
    rcases hx with rfl | hx
    · rw [ht.key, Function.update_self]
      exact ⟨ps,ht.chained⟩
    · obtain ⟨qs,hc⟩ := h.chained x (hmem x hx)
      rw [Function.update_of_ne (hother x hx)]
      exact ⟨qs,hc.frame ht.frame (hother x hx)⟩
  · rw [hin] at hk
    have hne : k ≠ e.key := by
      have := hk e' (List.mem_append_right _ List.mem_cons_self)
      rw [ht.key] at this
      exact this.symm
    rw [Function.update_of_ne hne]
    refine h.absent k fun x hx => ?_
    rw [hin, List.perm_middle.mem_iff, List.mem_cons] at hx
    rcases hx with rfl | hx
    · exact hne.symm
    · exact hk x (List.perm_middle.mem_iff.2 (List.mem_cons_of_mem _ hx))
  · rcases eq_or_ne k e.key with rfl | hne
    · rw [Function.update_self]
      exact hvs
    · rw [Function.update_of_ne hne]
      exact h.fits k

end Turn

theorem Listed.insert (hb : Sized) {f : KeyFrame 0} {p : KeyPath 1 m}
    (h : Listed s ((Path.step f p).plug BTree.nil) fs D os nd live ent μ) (hat : AtGap s f p k)
    (hmode : s.ctx.super.smode = 0) (hshort : k.length ≤ 31) (hv : Fits v) (hk : Keeps s s' (D ++ os))
    (hsuper : s'.ctx.super = s.ctx.super)
    (hdisk : s'.disk = s.disk.put f.id ((s.disk.block f.id).putky ⟨k,v,ZNULL⟩ ZNULL ZNULL)) :
    Listed s' (p.plug (f.fillTwo BTree.nil ⟨k,v,ZNULL⟩ BTree.nil)) fs D os nd live ent (Function.update μ k [v]) := by
  have hformed := h.formed.insert (e := ⟨k,v,ZNULL⟩) hat hmode hshort hsuper hdisk
  have hold : ((Path.step f p).plug BTree.nil).inorder = (Path.step f p).left ++ (Path.step f p).right := by
    rw [Path.inorder_plug, BTree.inorder_zero, List.append_nil]
  have hne : ∀ x ∈ (Path.step f p).left ++ (Path.step f p).right, x.key ≠ k := fun x hx => by
    rcases List.mem_append.1 hx with hx | hx
    · exact (hat.before x hx).ne
    · exact (hat.after x hx).ne'
  have hsize : s.disk.Reaches s'.disk := .of_size (by rw [hdisk]; rfl)
  refine ⟨hformed,h.whole.ofIndex hformed.index h.formed.pos hk (h.whole.reached hb hsize),?_,fun j hj => ?_,
    fun j => ?_⟩
  · rw [inorder_insert]
    intro x hx
    rw [List.perm_middle.mem_iff, List.mem_cons] at hx
    rcases hx with rfl | hx
    · rw [Function.update_self]
      exact ⟨[],Or.inl ⟨rfl,rfl,rfl⟩⟩
    · rw [Function.update_of_ne (hne x hx)]
      exact h.chained x (hold ▸ hx)
  · rw [inorder_insert] at hj
    have hjk : j ≠ k := fun hjk => hj _ (List.mem_append_right _ List.mem_cons_self) hjk.symm
    rw [Function.update_of_ne hjk]
    refine h.absent j fun x hx => hj x ?_
    rw [List.perm_middle.mem_iff, ← hold]
    exact List.mem_cons_of_mem _ hx
  · rcases eq_or_ne j k with rfl | hjk
    · rw [Function.update_self]
      simpa using hv
    · rw [Function.update_of_ne hjk]
      exact h.fits j

theorem Listed.without (hb : Sized) {p : KeyPath (n + 1) m} {ks : List (KeyTree n)} {t : KeyTree m'} {fs2 D2 : List Int}
    {s2 : St} (h : Listed s (p.plug (BTree.node blk (l ++ e :: r) ks)) fs D os nd live ent μ)
    (hed : Edit s s2 ((p.plug (BTree.node blk (l ++ e :: r) ks)).ids ++ os) blk l.length e)
    (hd : Dups s2 fs2 D2 ((p.plug (BTree.node blk (l ++ e :: r) ks)).ids ++ os) nd' live' ent')
    (hfr : Frame e.key live ent live' ent')
    (ho : Without s2 s' (p.plug (BTree.node blk (l ++ e :: r) ks)) e t fs2 fs' (D2 ++ os)) :
    Listed s' t fs' D2 os nd' live' ent' (Function.update μ e.key []) := by
  obtain ⟨A,B,hT,ht⟩ := ho.drop
  have hsort := hT ▸ h.formed.sorted
  have hne : ∀ x ∈ A ++ B, x.key ≠ e.key := fun x hx => by
    rcases List.mem_append.1 hx with hx | hx
    · exact (hsort.lt hx List.mem_cons_self).ne
    · exact ((List.pairwise_cons.1 hsort.right).1 x hx).ne'
  have hmem : ∀ x ∈ A ++ B, x ∈ (p.plug (BTree.node blk (l ++ e :: r) ks)).inorder := fun x hx => by
    rw [hT, List.perm_middle.mem_iff]
    exact List.mem_cons_of_mem e hx
  have hwhole := hed.whole h.whole hd
  refine ⟨ho.formed,hwhole.ofIndex ho.formed.index ho.formed.pos ho.keeps (hwhole.reached hb ho.reaches),?_,
    fun k hk => ?_,fun k => ?_⟩
  · rw [ht]
    intro x hx
    rw [Function.update_of_ne (hne x hx)]
    obtain ⟨qs,hc⟩ := h.chained x (hmem x hx)
    exact ⟨qs,hc.frame hfr (hne x hx)⟩
  · rcases eq_or_ne k e.key with rfl | hke
    · rw [Function.update_self]
    · rw [Function.update_of_ne hke]
      refine h.absent k fun x hx => ?_
      rw [hT, List.perm_middle.mem_iff, List.mem_cons] at hx
      rcases hx with rfl | hx
      · exact hke.symm
      · exact hk x (ht ▸ hx)
  · rcases eq_or_ne k e.key with rfl | hke
    · simp
    · rw [Function.update_of_ne hke]
      exact h.fits k

end Btlib
