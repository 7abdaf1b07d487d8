import Mathlib.Data.List.Nodup
import Btlib.Index.Refine
import Btlib.Source.Files

namespace Btlib

open Multiway

section Catalog

variable [Build] {n : Nat} {s s' : St} {t : KeyTree n} {fs os : List Int} {D : Int}

-- The same handle on another root.
def St.at (s : St) (blk : Int) : St := { s with ctx.super.scroot := blk }

-- The superroot names the block `D` as its default root; `os` are blocks that are not its own.
structure Catalog (s : St) (t : KeyTree n) (fs os : List Int) (D : Int) : Prop where
  index : Index (s.at ZSUPER) t fs os
  wf : t.RootWf ZMXKEY
  pos : 0 < n
  sorted : Sorted KeyEnt.key t.inorder
  named : ⟨key "$$default",D,ZNULL⟩ ∈ t.inorder

omit [Build] in
theorem eq_of_key_eq {L : List KeyEnt} (h : Sorted KeyEnt.key L) {e e' : KeyEnt} (he : e ∈ L) (he' : e' ∈ L)
    (hk : e.key = e'.key) : e = e' := by
  have hnodup : (L.map KeyEnt.key).Nodup := (List.pairwise_map.2 h).imp fun hlt => ne_of_lt hlt
  exact List.inj_on_of_nodup_map hnodup he he' hk

-- What a search of the superroot leaves: the same names in its tree, and nothing else touched.
structure Looked (s s' : St) (fs' os : List Int) (D : Int) (names : Nat) : Prop where
  catalog : ∃ n, ∃ t : KeyTree n, Catalog s' t fs' os D ∧ t.inorder.length = names
  keeps : Keeps (s.at ZSUPER) (s'.at ZSUPER) os

theorem Catalog.ends_bfndky (hcap : 3 ≤ ZMXKEY) (h : Catalog s t fs os D) (ho : s.ctx.isopen = true)
    (hs : s.ctx.shared = false) (hroot : s.ctx.super.scroot = ZSUPER) (hfuel : 2 * t.inorder.length + 3 ≤ FUEL) :
    (exec (bfndky (key "$$default")) s).Ends (Refused ZSUPER) fun r => r.1 = (0, D) ∧ r.2.ctx.err.qerror = 0 ∧
      r.2.ctx.super.scroot = ZSUPER ∧ ∃ fs', Looked s r.2 fs' os D t.inorder.length := by
  have hat : s.at ZSUPER = s := by rw [St.at, ← hroot]
  have hindex : Index s t fs os := hat ▸ h.index
  have hrefused : Refused ZSUPER = Refused s.ctx.super.scroot := by rw [hroot]
  rw [hrefused]
  refine Btlib.ends_bfndky hcap ho hs h.pos hindex h.wf h.sorted hfuel ?_ ?_
  · intro n m p blk l e r ks s' fs' hspot he hkey
    have hin : e ∈ t.inorder := by
      rw [← hspot.inorder, p.inorder_plug]
      refine List.mem_append_left _ (List.mem_append_right _ (mem_weave.2 (Or.inr ?_)))
      exact List.mem_append_right _ List.mem_cons_self
    have heq : e = ⟨key "$$default",D,ZNULL⟩ := eq_of_key_eq h.sorted hin h.named he
    have hmem : blk ∈ (p.plug (BTree.node blk (l ++ e :: r) ks)).ids := Index.mem_plug.2 (Or.inl List.mem_cons_self)
    have herr : s'.ctx.err = ⟨"", 0, .none⟩ := hspot.err
    rw [exec_btduppos_single hkey (hspot.index.has hmem)
      (holds_node.1 ((holds_plug_iff _ _).1 hspot.index.holds).2).1 (by rw [heq])]
    refine ⟨hspot.keeps.shared.trans hs,?_⟩
    rw [herr, heq]
    have hroot' : s'.ctx.super.scroot = ZSUPER := hspot.keeps.root.trans hroot
    have hat' : s'.at ZSUPER = s' := by rw [St.at, ← hroot']
    refine ⟨rfl,rfl,hroot',fs',⟨_,_,?_,congrArg List.length hspot.inorder⟩,?_⟩
    · exact ⟨hat'.symm ▸ hspot.index,hspot.wf,hspot.pos,hspot.inorder ▸ h.sorted,hspot.inorder ▸ h.named⟩
    · rw [hat, hat']
      exact hspot.keeps.clear
  · intro m f p s' fs' v hspot hgap
    have hin := h.named
    rw [← hspot.inorder, Path.inorder_plug, BTree.inorder_zero, List.append_nil] at hin
    rcases List.mem_append.1 hin with hin | hin
    · exact absurd (hgap.before _ hin) (lt_irrefl _)
    · exact absurd (hgap.after _ hin) (lt_irrefl _)

theorem Catalog.moved {fs' os' : List Int} (h : Catalog s t fs os D) (hblock : ∀ b ∈ t.ids, s'.disk.block b = s.disk.block b)
    (hstore : Store s' fs' (t.ids ++ os')) : Catalog s' t fs' os' D := by
  refine ⟨⟨h.index.link,h.index.holds.congr hblock,fun b hb => ?_,hstore.transfer rfl (fun _ _ => rfl) rfl rfl⟩,h.wf,h.pos,
    h.sorted,h.named⟩
  exact (congrArg Block.btype (hblock b hb)).trans (h.index.kind b hb)

theorem Catalog.same (h : Catalog s t fs os D) {c : Ctx} (h1 : c.super.sfreep = s.ctx.super.sfreep)
    (h2 : c.super.sblkmx = s.ctx.super.sblkmx) : Catalog { s with ctx := c } t fs os D :=
  ⟨⟨h.index.link,h.index.holds,h.index.kind,h.index.store.transfer rfl (fun _ _ => rfl) h1 h2⟩,h.wf,h.pos,h.sorted,h.named⟩

theorem Catalog.has (h : Catalog s t fs os D) : s.disk.Has ZSUPER := by
  have hpos := h.pos
  obtain ⟨n,rfl⟩ : ∃ k, n = k + 1 := ⟨n - 1,by omega⟩
  have hlink : t.link = ZSUPER := h.index.link
  exact hlink ▸ h.index.has Index.link_mem

-- `btchgr` to the default root.
theorem Catalog.ends_btchgr (hcap : 3 ≤ ZMXKEY) (h : Catalog s t fs os D) (ho : s.ctx.isopen = true)
    (hs : s.ctx.shared = false) (hhas : s.disk.Has s.ctx.super.scroot) (hD : D ∈ os)
    (htype : (s.disk.block D).btype = ZROOT) (hfuel : 2 * t.inorder.length + 3 ≤ FUEL) :
    (exec (btchgr (key "$$default")) s).Ends (Refused ZSUPER) fun r => r.1 = 0 ∧
      r.2.ctx.err.qerror = 0 ∧ r.2.ctx.super.scroot = D ∧ r.2.ctx.lf = ⟨[],ZNULL,ZNULL,false,ZNULL⟩ ∧
        ∃ fs', Looked s r.2 fs' os D t.inorder.length := by
  have hz : s.disk.Has ZSUPER := h.has
  have hsuper : Catalog (s.clear.at ZSUPER) t fs os D := h.same rfl rfl
  have hfind := hsuper.ends_bfndky hcap ho hs rfl hfuel
  rw [btchgr, exec_api ho, errOf, exec_bind]
  refine Prog.Outcome.Ends.bind (ends_locked (s := s.clear) hs (Q := fun r => r.2.ctx.err.qerror = 0 ∧
    r.2.ctx.super.scroot = D ∧ r.2.ctx.lf = ⟨[],ZNULL,ZNULL,false,ZNULL⟩ ∧
      ∃ fs', Looked s r.2 fs' os D t.inorder.length) ?_) ?_
  · have hclear : s.clear.disk.Has s.clear.ctx.super.scroot := hhas
    have hroot : ∀ blk (s : St), exec (setRoot blk) s = .done ((), s.at blk) := fun _ _ => rfl
    have hzs : (s.clear.at ZSUPER).disk.Has ZSUPER := hz
    simp only [exec_bind, exec_get, Prog.Outcome.bind_done, exec_ite, exec_bsetbs hclear, hroot, exec_bsetbs hzs, ite_self]
    refine Prog.Outcome.Ends.bind hfind ?_
    rintro ⟨_,s'⟩ ⟨rfl,herr,hr,fs',⟨n',t',hc,hlen⟩,hk⟩
    dsimp only at herr hr hc hk ⊢
    have hother : s'.disk.block D = s.disk.block D := hk.other D hD
    have htype' : ¬ (s'.disk.block D).btype ≠ ZROOT := by
      rw [hother]
      exact not_not.2 htype
    have hD' : s'.disk.Has D := hc.index.store.has_used (List.mem_append_right _ hD)
    have hname : ∀ s : St, exec (setRootName (key "$$default")) s =
        .done ((), { s with ctx.super.scclas := keycpy (key "$$default") }) := fun _ => rfl
    have hlf : ∀ s : St, exec bclrlf s = .done ((), { s with ctx.lf := ⟨[],ZNULL,ZNULL,false,ZNULL⟩ }) := fun _ => rfl
    have hinf : ∀ c : Ctx, exec (bgtinf D .ZBTYPE) ⟨c,s'.disk⟩ = .done ((s'.disk.block D).btype, ⟨c,s'.disk⟩) :=
      fun c => (exec_bgtinf (s := ⟨c,s'.disk⟩) hD' _).trans (by rw [Block.getInf_ZBTYPE])
    have hmark : ∀ c : Ctx, exec (bsetbs D true) ⟨c,s'.disk⟩ = .done ((), ⟨c,s'.disk⟩) := fun c =>
      exec_bsetbs (s := ⟨c,s'.disk⟩) hD' true
    rw [exec_bsetbs hc.has, Prog.Outcome.bind_done, hlf, Prog.Outcome.bind_done, if_pos rfl, hinf, Prog.Outcome.bind_done,
      if_neg htype', hname, Prog.Outcome.bind_done]
    change Prog.Outcome.Ends _ _ (exec (bsetbs D true) ⟨_,s'.disk⟩)
    rw [hmark]
    refine ⟨hk.shared.trans hs,herr,rfl,rfl,fs',⟨n',t',hc.same rfl rfl,hlen⟩,?_⟩
    exact ⟨hk.isopen,hk.shared,hk.lckcnt,hk.root,hk.mode,hk.other,hk.info⟩
  · rintro ⟨_,s'⟩ ⟨herr,hrest⟩
    exact ⟨herr,herr,hrest⟩

end Catalog

section New

variable [Build] {s : St}

-- A file of two blocks: a superroot with its first two names, and the default root, which is empty.
structure Blank (s : St) : Prop where
  size : s.disk.size = 2
  sblkmx : s.ctx.super.sblkmx = 2
  sfreep : s.ctx.super.sfreep = ZNULL
  names : (s.disk.block ZSUPER).Shows [⟨key "$$default",DEFAULT_ROOT,ZNULL⟩,⟨key "$$super",ZSUPER,ZNULL⟩]
    [ZNULL,ZNULL,ZNULL]
  super : (s.disk.block ZSUPER).btype = ZROOT
  empty : (s.disk.block DEFAULT_ROOT).nkeys = 0
  root : (s.disk.block DEFAULT_ROOT).btype = ZROOT
  nodups : (s.disk.block DEFAULT_ROOT).misc = 0

-- The trees of such a file.
def namesTree : KeyTree 1 :=
  BTree.node ZSUPER [⟨key "$$default",DEFAULT_ROOT,ZNULL⟩,⟨key "$$super",ZSUPER,ZNULL⟩] [BTree.nil,BTree.nil,BTree.nil]

def emptyTree : KeyTree 1 := BTree.node DEFAULT_ROOT [] [BTree.nil]

omit [Build] in
theorem inorder_namesTree : namesTree.inorder = [⟨key "$$default",DEFAULT_ROOT,ZNULL⟩,⟨key "$$super",ZSUPER,ZNULL⟩] := by
  simp [namesTree, BTree.inorder_node]

omit [Build] in
theorem ids_namesTree : namesTree.ids = [ZSUPER] := by simp [namesTree, BTree.ids_node]

omit [Build] in
theorem ids_emptyTree : emptyTree.ids = [DEFAULT_ROOT] := by simp [emptyTree, BTree.ids_node]

omit [Build] in
theorem inorder_emptyTree : emptyTree.inorder = [] := by simp [emptyTree, BTree.inorder_node]

omit [Build] in
theorem Blank.store (h : Blank s) {used : List Int} (hp : used.Perm [ZSUPER,DEFAULT_ROOT]) : Store s [] used := by
  refine ⟨h.sfreep,hp.nodup_iff.2 (by decide),fun b hb => ?_,h.sblkmx.trans h.size.symm,by rw [h.size]; decide⟩
  rcases List.mem_pair.1 (hp.mem_iff.1 hb) with rfl | rfl
  · exact ⟨le_rfl,by rw [h.size]; decide⟩
  · exact ⟨by decide,by rw [h.size]; decide⟩

theorem Blank.catalog (hcap : 2 ≤ ZMXKEY) (h : Blank s) : Catalog s namesTree [] [DEFAULT_ROOT] DEFAULT_ROOT := by
  refine ⟨⟨rfl,holds_node.2 ⟨h.names,fun _ _ => trivial⟩,fun b hb => ?_,?_⟩,?_,Nat.one_pos,?_,?_⟩
  · rw [ids_namesTree, List.mem_singleton] at hb
    rw [hb]
    exact h.super
  · rw [ids_namesTree]
    exact (h.store (.refl _)).transfer rfl (fun _ _ => rfl) rfl rfl
  · exact BTree.wf_node.2 ⟨by decide,hcap,rfl,fun _ _ => trivial⟩
  · rw [inorder_namesTree]
    exact List.pairwise_pair.2 (by decide)
  · rw [inorder_namesTree]
    exact List.mem_cons_self

theorem Blank.plain (h : Blank s) : Plain (s.at DEFAULT_ROOT) emptyTree [] [ZSUPER] fun _ => none := by
  refine ⟨⟨rfl,holds_node.2 ⟨⟨h.empty,trivial,trivial⟩,fun _ _ => trivial⟩,fun b hb => ?_,?_⟩,?_,Nat.one_pos,?_,?_,?_,h.nodups,?_⟩
  · rw [ids_emptyTree, List.mem_singleton] at hb
    rw [hb]
    exact h.root
  · rw [ids_emptyTree]
    exact (h.store (List.Perm.swap ..)).transfer rfl (fun _ _ => rfl) rfl rfl
  · exact BTree.wf_node.2 ⟨by decide,Nat.zero_le _,rfl,fun _ _ => trivial⟩
  all_goals simp [inorder_emptyTree, Sorted]

end New

end Btlib
