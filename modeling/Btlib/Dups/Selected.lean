import Btlib.Dups.Lists
import Btlib.Walk.Places

namespace Btlib

open Multiway Links

variable [Build] {n m : Nat} {s s' : St} {fs fs' D D' os : List Int} {nd nd' : Int → Nat} {live live' : Finset (Int × Nat)}
  {ent ent' : Int × Nat → DKey} {μ ν : Key → List Int} {blk : Int} {l r : List KeyEnt} {e e' : KeyEnt} {k key : Key}
  {v val : Int} {vs : List Int} {ps : List (Int × Nat)} {keys : Nat} {o : Standing} {vals : KeyEnt → List Int}

-- A root of a handle of its own that has `keys` keys at most: `μ` are the values of its keys.
def Valued (s : St) (os : List Int) (μ : Key → List Int) (keys : Nat) : Prop :=
  Writable s ∧ ∃ (m : Nat) (t : KeyTree m) (fs D : List Int) (nd : Int → Nat) (live : Finset (Int × Nat))
    (ent : Int × Nat → DKey), Listed s t fs D os nd live ent μ ∧ t.inorder.length ≤ keys

-- And the last found position is at `o`.
def Selects (s : St) (os : List Int) (μ : Key → List Int) (keys : Nat) (o : Standing) : Prop :=
  Writable s ∧ ∃ (m : Nat) (t : KeyTree m) (fs D : List Int) (nd : Int → Nat) (live : Finset (Int × Nat))
    (ent : Int × Nat → DKey), Listed s t fs D os nd live ent μ ∧ t.inorder.length ≤ keys ∧
      Position s t live ent (fun e => μ e.key) o

structure SameRoot (s s' : St) : Prop where
  root : s'.ctx.super.scroot = s.ctx.super.scroot
  misc : (s'.disk.block s'.ctx.super.scroot).misc = (s.disk.block s.ctx.super.scroot).misc

-- What a call leaves behind: the same root, with the values of `ν`.
structure Ensues (s : St) (os : List Int) (keys : Nat) (ν : Key → List Int) (o : Standing) (s' : St) : Prop where
  same : SameRoot s s'
  selects : Selects s' os ν keys o

omit [Build] in
theorem SameRoot.trans {s1 : St} (h : SameRoot s s1) (h' : SameRoot s1 s') : SameRoot s s' :=
  ⟨h'.root.trans h.root,h'.misc.trans h.misc⟩

omit [Build] in
theorem SameRoot.withCtx {c : Ctx} (h : SameRoot s s') (hc : c.super = s'.ctx.super) : SameRoot s { s' with ctx := c } := by
  refine ⟨?_,?_⟩ <;> rw [hc]
  · exact h.root
  · exact h.misc

omit [Build] in
theorem Keeps.sameRoot (h : Keeps s s' os) : SameRoot s s' := ⟨h.root,by rw [h.root, h.info.misc]⟩

omit [Build] in
theorem Edit.sameRoot {b i : Int} (he : Edit s s' os b i e') (hr : s.ctx.super.scroot ∈ os) : SameRoot s s' :=
  ⟨he.root,(he.root_info hr).2⟩

theorem Selects.valued (h : Selects s os μ keys o) : Valued s os μ keys := by
  obtain ⟨hw,m,t,fs,D,nd,live,ent,hl,hlen,-⟩ := h
  exact ⟨hw,m,t,fs,D,nd,live,ent,hl,hlen⟩

theorem Valued.mono {keys' : Nat} (h : Valued s os μ keys) (hle : keys ≤ keys') : Valued s os μ keys' := by
  obtain ⟨hw,m,t,fs,D,nd,live,ent,hl,hlen⟩ := h
  exact ⟨hw,m,t,fs,D,nd,live,ent,hl,hlen.trans hle⟩

theorem Selects.mono {keys' : Nat} (h : Selects s os μ keys o) (hle : keys ≤ keys') : Selects s os μ keys' o := by
  obtain ⟨hw,m,t,fs,D,nd,live,ent,hl,hlen,hp⟩ := h
  exact ⟨hw,m,t,fs,D,nd,live,ent,hl,hlen.trans hle,hp⟩

theorem Ensues.mono {keys' : Nat} (h : Ensues s os keys ν o s') (hle : keys ≤ keys') : Ensues s os keys' ν o s' :=
  ⟨h.same,h.selects.mono hle⟩

theorem Listed.ensues {t : KeyTree m} (h : Listed s' t fs D os nd live ent ν) (hw : Writable s') (hsame : SameRoot s s')
    (hlen : t.inorder.length ≤ keys) (hp : Position s' t live ent (fun e => ν e.key) o) : Ensues s os keys ν o s' :=
  ⟨hsame,hw,m,t,fs,D,nd,live,ent,h,hlen,hp⟩

theorem Listed.shelf {t : KeyTree m} (h : Listed s t fs D os nd live ent μ) (hopen : s.ctx.isopen = true) :
    Shelf s t fs D os live ent fun e => μ e.key :=
  ⟨h.formed.index,h.whole.dups.legible,h.formed.wf,h.formed.pos,h.formed.sorted,
    fun e he => keycpy_eq (h.formed.short e he),h.chained,hopen⟩

theorem onDup_first (hd : s.ctx.lf.draddr = front addr ZNULL ps) : OnDup s ps 0 := by
  cases ps with
  | nil => exact Or.inl ⟨rfl,hd⟩
  | cons p ps => exact Or.inr ⟨[],p,ps,rfl,rfl,hd⟩

namespace AtEntry

variable {f : KeyFrame n} {d : KeyTree n} {p : KeyPath (n + 1) m} {t : KeyTree m} {after : List KeyEnt} {lvs rvs : List Int}

-- The value number `lvs.length` of the key is selected.
theorem stands (h : AtEntry s t live ent vals f d p e r after ps) (hvs : vals e = lvs ++ v :: rvs)
    (hx : s.ctx.lf.lfexct = true) (hd : OnDup s ps lvs.length) : Stands s t live ent vals
      ⟨items vals ((Path.step f p).left ++ d.inorder) ++ lvs.map (e.key, ·), some (e.key, v),
        rvs.map (e.key, ·) ++ items vals after⟩ :=
  Or.inr ⟨n,f,d,p,e,r,after,ps,lvs,v,rvs,h.plug,⟨h.blk,h.pos,h.stack,hx,h.ents⟩,h.lfkey,h.right,h.chained,hvs,hd,rfl⟩

-- The duplicate that is selected has been deleted, with others left.
theorem deleted {us ws : List (Int × Nat)} {q : Int × Nat} {gone : Prop}
    (h : AtEntry s t live ent vals f d p e r after (us ++ ws)) (hvs : vals e = lvs ++ rvs) (hlen : us.length = lvs.length)
    (hrest : us ++ ws ≠ []) (hx : s.ctx.lf.lfexct = false) (hd : s.ctx.lf.draddr = addr q)
    (hq : Stale s q ⟨e.key,true,v,front addr ZNULL ws,back addr ZNULL us⟩ gone) :
    gone ∧ Position s t live ent vals .freed ∨ ¬ gone ∧ Position s t live ent vals (.place
      ⟨items vals ((Path.step f p).left ++ d.inorder) ++ lvs.map (e.key, ·), none,
        rvs.map (e.key, ·) ++ items vals after⟩) := by
  by_cases hg : gone
  · obtain rfl : gone = True := eq_true hg
    exact Or.inl ⟨trivial,q,_,hx,hd,hq⟩
  · obtain rfl : gone = False := eq_false hg
    exact Or.inr ⟨not_false,Or.inr ⟨n,f,d,p,e,r,after,us,ws,lvs,rvs,q,v,h,hvs,hlen,hrest,hx,hd,hq,rfl⟩⟩

end AtEntry

section Entries

variable {p : KeyPath (n + 1) m} (ks : List (KeyTree n))

theorem Located.atEntry (hat : Located s p blk l e) (hwf : (p.plug (BTree.node blk (l ++ e :: r) ks)).RootWf ZMXKEY)
    (hc : Chained live ent e ps (vals e)) : ∃ (f : KeyFrame n) (d : KeyTree n) (after : List KeyEnt),
      AtEntry s (p.plug (BTree.node blk (l ++ e :: r) ks)) live ent vals f d p e r after ps ∧ f.id = blk := by
  have hks : ks.length = (l ++ e :: r).length + 1 := (BTree.wf_node.1 (p.rootWf_plug_iff _ |>.1 hwf).2).2.2.1
  obtain ⟨f,d,hfill,hid,hle,hre⟩ := exists_frame blk hks
  obtain ⟨id,le,lk,re,rk,hl,hr⟩ := f
  obtain rfl : re = e :: r := hre
  exact ⟨_,d,_,⟨by rw [hfill],hat.lfblk.trans hid.symm,by rw [hat.lfpos, ← hle],hat.stack,rfl,hat.lfkey,rfl,hc⟩,hid⟩

variable {ks} (vals)

-- At the first value of the key.
theorem Located.stands (hat : Located s p blk l e) (hwf : (p.plug (BTree.node blk (l ++ e :: r) ks)).RootWf ZMXKEY)
    (hc : Chained live ent e ps (vals e)) (hx : s.ctx.lf.lfexct = true) (hd : s.ctx.lf.draddr = front addr ZNULL ps)
    (hvs : vals e = v :: vs) : ∃ c : Cursor Item, c.cur = some (e.key, v) ∧
      Stands s (p.plug (BTree.node blk (l ++ e :: r) ks)) live ent vals c := by
  obtain ⟨f,d,after,h,-⟩ := hat.atEntry ks hwf hc
  exact ⟨_,rfl,h.stands (show vals e = [] ++ v :: vs from hvs) hx (onDup_first hd)⟩

theorem Located.whole (hat : Located s p blk l e) (hwf : (p.plug (BTree.node blk (l ++ e :: r) ks)).RootWf ZMXKEY)
    (hc : Chained live ent e ps (vals e)) (hx : s.ctx.lf.lfexct = true) (hd : s.ctx.lf.draddr = ZNULL) (hne : ps ≠ []) :
    ∃ o, Position s (p.plug (BTree.node blk (l ++ e :: r) ks)) live ent vals o := by
  obtain ⟨f,d,after,h,-⟩ := hat.atEntry ks hwf hc
  exact ⟨.whole _ _ _,n,f,d,p,e,r,after,ps,⟨h,hne,hx,hd⟩,rfl,rfl,rfl⟩

theorem Located.deleted {us ws : List (Int × Nat)} {q : Int × Nat} {lvs rvs : List Int} {gone : Prop} (hat : Located s p blk l e)
    (hwf : (p.plug (BTree.node blk (l ++ e :: r) ks)).RootWf ZMXKEY) (hc : Chained live ent e (us ++ ws) (vals e))
    (hvs : vals e = lvs ++ rvs) (hlen : us.length = lvs.length) (hrest : us ++ ws ≠ []) (hx : s.ctx.lf.lfexct = false)
    (hd : s.ctx.lf.draddr = addr q) (hq : Stale s q ⟨e.key,true,v,front addr ZNULL ws,back addr ZNULL us⟩ gone) :
    ∃ o, Position s (p.plug (BTree.node blk (l ++ e :: r) ks)) live ent vals o := by
  obtain ⟨f,d,after,h,-⟩ := hat.atEntry ks hwf hc
  rcases h.deleted hvs hlen hrest hx hd hq with ⟨-,hp⟩ | ⟨-,hp⟩
  · exact ⟨_,hp⟩
  · exact ⟨_,hp⟩

end Entries

section Gaps

variable {f : KeyFrame 0} {p : KeyPath 1 m} (vals)

theorem AtGap.position (hat : AtGap s f p k) : Position s ((Path.step f p).plug BTree.nil) live ent vals
    (.place ⟨items vals (Path.step f p).left, none, items vals (Path.step f p).right⟩) := by
  refine Or.inl (Or.inl ⟨f,p,rfl,⟨?_,fun h0 => ?_,hat.stack⟩,?_,?_,rfl⟩) <;> rw [hat.lf]
  exact if_neg h0

-- A key has been put into the gap: the position is before it, or before the root block if that was empty.
theorem AtGap.inserted (hat : AtGap s f p k) (hix : Index s' (p.plug (f.fillTwo BTree.nil e BTree.nil)) fs os)
    (hwf : ((Path.step f p).plug BTree.nil).RootWf ZMXKEY) (hlf : s'.ctx.lf = s.ctx.lf) (hstk : s'.ctx.stk = s.ctx.stk) :
    ∃ o, Position s' (p.plug (f.fillTwo BTree.nil e BTree.nil)) live ent vals o := by
  have hfill : (f.withRight e BTree.nil).fill BTree.nil = f.fillTwo BTree.nil e BTree.nil := rfl
  by_cases h0 : f.size = 0
  · refine ⟨.before,?_⟩
    have hp : p.floor ≤ 0 := h0 ▸ (Path.wf_step.1 ((Path.step f p).rootWf_plug_iff BTree.nil |>.1 hwf).1).1.1
    cases p with
    | step g q => exact absurd hp (by simp [Path.floor])
    | root =>
        have hid : f.id = s'.ctx.super.scroot := hix.link
        have hnk := (holds_fill_iff.1 (hfill ▸ hix.holds)).1.nkeys
        refine ⟨by rw [hlf, hat.lf, ← hid],by rw [hlf, hat.lf]; exact if_pos h0,by rw [hlf, hat.lf],by rw [hlf, hat.lf],
          hstk.trans hat.stack,?_⟩
        rw [← hid]
        change (s'.disk.block (f.withRight e BTree.nil).id).nkeys ≠ 0
        rw [hnk, Frame.size_withRight]
        exact Int.natCast_ne_zero.2 (Nat.succ_ne_zero _)
  · refine ⟨.place _,Or.inl (Or.inl ⟨f.withRight e BTree.nil,p,rfl,⟨?_,fun _ => ?_,hstk.trans hat.stack⟩,?_,?_,rfl⟩)⟩ <;>
      rw [hlf, hat.lf]
    · rfl
    · exact if_neg h0

end Gaps

end Btlib
