import Btlib.Mend.Merge

namespace Btlib

open Multiway

section Take

variable [Build] {n m : Nat} {s s' : St} {fs fs' os : List Int} {b c : Int} {es l r : List KeyEnt} {e x : KeyEnt}

-- The entry at the last found position goes, and a tree of more than one block is put in order.
def takeOut : BT Unit := do
  let lf := (← get).lf
  bremky lf.lfblk lf.lfpos
  let type ← bgtinf lf.lfblk .ZBTYPE
  if type ≠ ZROOT then mergeUp

def lookAgain : BT Unit := do
  let c ← get
  if ¬ c.shared ∧ c.err.qerror = 0 then
    let r ← bfndky c.lf.lfkey
    if r.1 = QNOKEY then bterr0

theorem bdelk1Leaf_eq : bdelk1Leaf = takeOut >>= fun _ => lookAgain := by
  unfold bdelk1Leaf takeOut lookAgain
  simp only [bind_assoc]
  refine congrArg (get >>= ·) (funext fun c => congrArg (bremky c.lf.lfblk c.lf.lfpos >>= ·) (funext fun _ => ?_))
  refine congrArg (bgtinf c.lf.lfblk .ZBTYPE >>= ·) (funext fun type => ?_)
  by_cases htype : type = ZROOT
  · rw [if_neg (not_not.2 htype), if_neg (not_not.2 htype), pure_bind]
  · rw [if_pos htype, if_pos htype]

-- An entry of the leaf in the hole is to go.
structure AtLeaf (s : St) (q : KeyPath 1 m) (c : Int) (l : List KeyEnt) (x : KeyEnt) (r : List KeyEnt) (fs os : List Int) :
    Prop where
  index : Index s (q.plug (leaf c (l ++ x :: r))) fs os
  wf : (q.plug (leaf c (l ++ x :: r))).RootWf ZMXKEY
  sorted : Sorted KeyEnt.key (q.plug (leaf c (l ++ r))).inorder
  blk : s.ctx.lf.lfblk = c
  pos : s.ctx.lf.lfpos = l.length
  stack : s.ctx.stk = down q
  room : m ≤ 20
  fuel : m ≤ FUEL

-- Where the removal empties nodes on its way up, the siblings that take over have room.
def SiblingRoom (q : KeyPath 1 m) (es : List KeyEnt) : Prop :=
  ∀ (f : KeyFrame 1) (p : KeyPath 2 m), q = .step f p → Merges f es → p.Spares ZMXKEY

theorem AtLeaf.exec_takeOut {q : KeyPath 1 m} (h : AtLeaf s q c l x r fs os) (hcap : 8 ≤ ZMXKEY) (hsib : SiblingRoom q (l ++ r)) :
    ∃ s' m' fs', ∃ t' : KeyTree m', exec takeOut s = .done ((), s') ∧ Repaired s s' (q.plug (leaf c (l ++ r))) t' fs fs' os := by
  obtain ⟨hq,hc⟩ := (Path.rootWf_plug_iff q _).1 h.wf
  obtain ⟨-,hlen⟩ := wf_leaf.1 hc
  simp only [List.length_append, List.length_cons] at hlen
  have hmem : c ∈ (q.plug (leaf c (l ++ x :: r))).ids := Index.mem_plug.2 (Or.inl List.mem_cons_self)
  have hhas := h.index.has hmem
  -- the leaf once its entry is gone
  have hleaf := ((holds_plug_iff q _).1 h.index.holds).2
  have hbare := (bare_of_holds hleaf (by simp)).remky
  have hrem := exec_bremky (s := s) hhas l.length
  have ht := (Turned.refl s [c]).put (List.mem_singleton_self c) ((s.disk.block c).remky_sameInfo l.length)
  have hbare' : ((s.disk.put c ((s.disk.block c).remky l.length)).block c).Bare (l ++ r) := by
    rw [Disk.block_put, Function.update_self]
    exact hbare
  have hidx := h.index.turnLeaf ht hbare'
  have hsteady := h.index.undisturbed ht fun d hd => List.mem_singleton.1 hd ▸ hmem
  have hmem1 : c ∈ (q.plug (leaf c (l ++ r))).ids := Index.mem_plug.2 (Or.inl List.mem_cons_self)
  have hkind := hidx.kind c hmem1
  have htype := exec_bgtinf (hidx.has hmem1) .ZBTYPE
  rw [Block.getInf_ZBTYPE, hkind] at htype
  obtain ⟨s1,hs1⟩ : ∃ s1 : St, s1 = { s with disk := s.disk.put c ((s.disk.block c).remky l.length) } := ⟨_,rfl⟩
  have hroot : s1.ctx.super.scroot = (q.plug (leaf c (l ++ r))).link := (hs1 ▸ hidx).link.symm
  rw [← hs1] at hrem hidx hsteady htype
  rw [hroot, link_plug, link_leaf] at htype
  have hctx : s1.ctx = s.ctx := by rw [hs1]
  have hopen : exec takeOut s = exec (if (if c = q.top c then ZROOT else ZINUSE) ≠ ZROOT then mergeUp else pure ()) s1 := by
    unfold takeOut
    refine (exec_then (exec_get _)).trans ?_
    dsimp only
    rw [h.blk, h.pos]
    exact (exec_then hrem).trans (exec_then htype)
  rw [hopen]
  cases q with
  | root =>
      have htop : c = (Path.root : KeyPath 1 1).top c := rfl
      rw [if_pos htop, if_neg (not_not.2 rfl)]
      refine ⟨s1,1,fs,leaf c (l ++ r),rfl,hidx,?_,Nat.one_pos,rfl,hsteady,.refl _⟩
      exact wf_leaf.2 ⟨Nat.zero_le _,by rw [List.length_append]; omega⟩
  | step f p =>
      obtain ⟨hf,hp⟩ := Path.wf_step.1 hq
      have htop : c ≠ (Path.step f p).top c := fun heq => by
        have hnd := ((Path.step f p).ids_plug _).nodup_iff.1 hidx.nodup
        exact (List.nodup_append.1 hnd).2.2 c List.mem_cons_self _ (Path.top_step_mem f p c) heq
      have hinuse : ZINUSE ≠ ZROOT := by decide
      rw [if_neg htop, if_pos hinuse]
      rw [show p.floor = 1 by cases p <;> rfl] at hf
      have hworn : Worn s1 f p c (l ++ r) fs os := ⟨hidx,hs1 ▸ hbare',hctx ▸ h.blk,hctx ▸ h.stack⟩
      have htier : Tier f c (l ++ r) := by
        refine ⟨hf,?_,by rw [List.length_append]; omega⟩
        have hsort := h.sorted
        rw [Path.plug_step, p.inorder_plug] at hsort
        exact hsort.left.right
      have hm := p.height_eq
      have hroom := h.room
      have hfuel := h.fuel
      obtain ⟨s2,m',fs2,t',hrun,hset⟩ := hworn.exec_mergeUp htier hcap hp
        (by rw [length_down, Path.depth, STKMAX]; omega) h.sorted (by omega) (hsib f p rfl)
      exact ⟨s2,m',fs2,t',hrun,hset.index,hset.wf,hset.pos,hset.inorder,hsteady.trans hset.undisturbed,hset.blocks⟩

-- The tree is in order again without the entry, and every block of it is in the tree or on the free list.
theorem entry_taken_out {q : KeyPath 1 m} (h : AtLeaf s q c l x r fs os) (hcap : 8 ≤ ZMXKEY) (hsib : SiblingRoom q (l ++ r)) :
    ∃ s' m' fs', ∃ t : KeyTree m', exec takeOut s = .done ((), s') ∧ Index s' t fs' os ∧ t.RootWf ZMXKEY ∧
      t.inorder = q.left ++ (l ++ r) ++ q.right ∧
      (fs' ++ t.ids).Perm (fs ++ (q.plug (leaf c (l ++ x :: r))).ids) ∧ Keeps s s' os := by
  obtain ⟨s',m',fs',t,hrun,hs⟩ := h.exec_takeOut hcap hsib
  have hin : t.inorder = q.left ++ (l ++ r) ++ q.right := by rw [hs.inorder, q.inorder_plug, inorder_leaf]
  have hids : ((q.plug (leaf c (l ++ r))).ids).Perm (q.plug (leaf c (l ++ x :: r))).ids := by
    refine (q.ids_plug _).trans (List.Perm.trans ?_ (q.ids_plug _).symm)
    rw [ids_leaf, ids_leaf]
  exact ⟨s',m',fs',t,hrun,hs.index,hs.wf,hin,hs.blocks.trans (hids.append_left fs),hs.undisturbed.keeps⟩

end Take

section Run

attribute [local instance] smallBuild

theorem entry_taken_out_two : ∃ s' m' fs', ∃ t : KeyTree m', exec takeOut twoLeaves = .done ((), s') ∧
    Index s' t fs' [0] ∧ t.RootWf ZMXKEY ∧ t.inorder = [lone 66, lone 67] ∧ (fs' ++ t.ids).Perm [1,2,3] ∧
      Keeps twoLeaves s' [0] := by
  have hwf : ((Path.step leftOfTwo .root).plug (leaf 2 [lone 65])).RootWf ZMXKEY := by
    refine (Path.rootWf_plug_iff (Path.step leftOfTwo .root) (leaf 2 [lone 65])).2
      ⟨⟨⟨by decide,by decide,fun k hk => ?_⟩,trivial⟩,wf_leaf.2 ⟨by decide,by decide⟩⟩
    rw [List.mem_singleton.1 hk]
    exact wf_leaf.2 ⟨by decide,by decide⟩
  have hsort : Sorted KeyEnt.key ((Path.step leftOfTwo .root).plug (leaf 2 [])).inorder := by
    have hin : ((Path.step leftOfTwo .root).plug (leaf 2 [])).inorder = [lone 66, lone 67] := rfl
    rw [hin]
    simp only [Sorted, List.pairwise_cons]
    decide
  have hat : AtLeaf twoLeaves (.step leftOfTwo .root) 2 [] (lone 65) [] [] [0] :=
    ⟨index_twoLeaves,hwf,hsort,rfl,rfl,rfl,by decide,by decide⟩
  refine entry_taken_out hat (by decide) fun f p hq _ => ?_
  cases hq
  trivial

end Run

end Btlib
