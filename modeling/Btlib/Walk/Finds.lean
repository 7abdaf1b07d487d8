import Btlib.Walk.Calls

namespace Btlib

open Multiway Links

theorem mem_items {vals : KeyEnt → List Int} {es : List KeyEnt} {x : Item} (h : x ∈ items vals es) :
    ∃ e ∈ es, x.1 = e.key := by
  obtain ⟨e,he,hx⟩ := List.mem_flatMap.1 h
  obtain ⟨v,-,rfl⟩ := List.mem_map.1 hx
  exact ⟨e,he,rfl⟩

variable [Build] {n m : Nat} {s s' s1 : St} {fs D os : List Int} {live : Finset (Int × Nat)}
  {ent : Int × Nat → DKey} {vals : KeyEnt → List Int} {t : KeyTree m} {e : KeyEnt} {l r bs as : List KeyEnt}
  {E : Op → Disk → Prop} {dir : Int} {c : Cursor Item}

omit [Build] in
theorem exists_frame (blk : Int) {ks : List (KeyTree n)} (hks : ks.length = (l ++ e :: r).length + 1) :
    ∃ (f : KeyFrame n) (d : KeyTree n), f.fill d = BTree.node blk (l ++ e :: r) ks ∧ f.id = blk ∧ f.le = l ∧
      f.re = e :: r := by
  simp only [List.length_append, List.length_cons] at hks
  have hlt : l.length < ks.length := by omega
  refine ⟨⟨blk,l,ks.take l.length,e :: r,ks.drop (l.length + 1),by simp; omega,by simp; omega⟩,ks[l.length],?_,rfl,rfl,rfl⟩
  simp only [Frame.fill]
  rw [← List.drop_eq_getElem_cons hlt, List.take_append_drop]

-- What a search leaves: a place in the same list, in a tree that it may have changed.
structure Sought (l : List KeyEnt) (D os : List Int) (live : Finset (Int × Nat)) (ent : Int × Nat → DKey)
    (vals : KeyEnt → List Int) (k : Key) (r : (Int × Int) × St) : Prop where
  here : ∃ (m : Nat) (t : KeyTree m) (fs : List Int), Shelf r.2 t fs D os live ent vals ∧ t.inorder = l ∧
    Stands r.2 t live ent vals (Cursor.seek Prod.fst k (items vals l))
  lfkey : r.2.ctx.lf.lfkey = k
  code : match (Cursor.seek Prod.fst k (items vals l)).cur with
    | none => r.1.1 = QNOKEY
    | some x => r.1 = (0, x.2)
  apart : (Cursor.seek Prod.fst k (items vals l)).cur = none →
    (∀ x ∈ (Cursor.seek Prod.fst k (items vals l)).before, x.1 < k) ∧
      ∀ x ∈ (Cursor.seek Prod.fst k (items vals l)).after, k < x.1

namespace Shelf

theorem ofSpot {m' : Nat} {t' : KeyTree m'} {fs' : List Int} {k : Key} (h : Shelf s t fs D os live ent vals)
    (hspot : Spot s s' t' fs' (D ++ os) ⟨t,fs,k⟩) : Shelf s' t' fs' D os live ent vals := by
  have hk := hspot.keeps
  have hhas : ∀ b ∈ D, s'.disk.Has b := fun b hb =>
    hspot.index.store.has_used (List.mem_append_right _ (List.mem_append_left _ hb))
  have hleg : Legible s' D live ent := by
    refine ⟨fun b hb => ⟨(h.legible.has b hb).1,hhas b hb⟩,fun b hb => ?_,fun p hp => ?_⟩
    · rw [hk.other b (List.mem_append_left _ hb)]
      exact h.legible.type b hb
    · have hp' := h.legible.seg p hp
      rw [hk.other p.1 (List.mem_append_left _ hp'.1)]
      exact hp'
  refine ⟨hspot.index,hleg,hspot.wf,hspot.pos,?_,?_,?_,hk.isopen.trans h.isopen⟩
  · rw [hspot.inorder]
    exact h.sorted
  · rw [hspot.inorder]
    exact h.copies
  · rw [hspot.inorder]
    exact h.chained

-- The search of `bfndky` comes to the first entry of its key, or to the gap the key belongs into.
theorem ends_search (hb : Sized) (hcap : 3 ≤ ZMXKEY) (h : Shelf s t fs D os live ent vals)
    (hf : 2 * t.inorder.length + 3 ≤ FUEL) (key : Key) :
    (exec (bfndkySearch key) s).Ends (Refused s.ctx.super.scroot) fun r =>
      Sought t.inorder D os live ent vals (keycpy key) r ∧ Keeps s r.2 (D ++ os) ∧ r.2.ctx.err = s.ctx.err := by
  refine ends_bfndkySearch hcap h.pos h.index h.wf h.sorted hf ?_ ?_
  · intro n' m' p blk l e r ks s' fs' hspot he hat
    have h' := h.ofSpot hspot
    have hks : ks.length = (l ++ e :: r).length + 1 :=
      (BTree.wf_node.1 (p.rootWf_plug_iff _ |>.1 hspot.wf).2).2.2.1
    obtain ⟨f,d,hfill,hid,hle,hre⟩ := exists_frame blk hks
    have hplug : p.plug (f.fill d) = p.plug (BTree.node blk (l ++ e :: r) ks) := by rw [hfill]
    obtain ⟨ps,lvs,v,rvs,a,code,hvs,hend,hc,hon,hex⟩ := h'.exec_enter ZNEXT hb hplug hre
    rw [if_pos rfl] at hend
    subst hend
    have hs' : s'.on f p e.key ZNULL = s' := by
      rw [St.on, hid, hle, ← hat.lf, ← hat.stack]
    obtain ⟨after,hright⟩ := h'.right hre (p := p)
    have hin := inorder_behind hright (d := d)
    rw [hplug, hspot.inorder] at hin
    have hlt : ∀ x ∈ items vals ((Path.step f p).left ++ d.inorder), x.1 < keycpy key := fun x hx => by
      obtain ⟨e',he',hx'⟩ := mem_items hx
      rw [hx', ← he]
      exact (hin ▸ h.sorted).lt he' List.mem_cons_self
    have hseek : Cursor.seek Prod.fst (keycpy key) (items vals t.inorder) =
        ⟨items vals ((Path.step f p).left ++ d.inorder), some (e.key, v), rvs.map (e.key, ·) ++ items vals after⟩ := by
      rw [hin, items_append, items_cons, hvs]
      exact Cursor.seek_hit hlt he
    rw [hs'] at hex
    rw [hex, Prog.Outcome.ends_done]
    refine ⟨⟨⟨m',_,fs',h'.same rfl rfl rfl,hspot.inorder,Or.inr ⟨n',f,d,p,e,r,after,ps,[],v,rvs,hplug,
      ⟨rfl,rfl,rfl,rfl,hre⟩,rfl,hright,hc,hvs,hon,?_⟩⟩,he,?_,fun h0 => ?_⟩,?_,hspot.err⟩
    · simp only [hseek, List.map_nil, List.append_nil]
    · simp only [hseek]
    · rw [hseek] at h0
      cases h0
    · have hk := hspot.keeps
      exact ⟨hk.isopen,hk.shared,hk.lckcnt,hk.root,hk.mode,hk.other,hk.info⟩
  · intro m' f p s' fs' v hspot hat
    have h' := h.ofSpot hspot
    have hin : t.inorder = (Path.step f p).left ++ (Path.step f p).right := by
      rw [← hspot.inorder, Path.inorder_plug]
      simp
    have hbefore : ∀ x ∈ items vals (Path.step f p).left, x.1 < keycpy key := fun x hx => by
      obtain ⟨e',he',hx'⟩ := mem_items hx
      rw [hx']
      exact hat.before e' he'
    have hafter : ∀ x ∈ items vals (Path.step f p).right, keycpy key < x.1 := fun x hx => by
      obtain ⟨e',he',hx'⟩ := mem_items hx
      rw [hx']
      exact hat.after e' he'
    have hseek : Cursor.seek Prod.fst (keycpy key) (items vals t.inorder) =
        ⟨items vals (Path.step f p).left, none, items vals (Path.step f p).right⟩ := by
      rw [hin, items_append]
      exact Cursor.seek_gap hbefore hafter
    refine ⟨⟨⟨m',_,fs',h',hspot.inorder,Or.inl ⟨f,p,⟨rfl,⟨?_,fun h0 => ?_,hat.stack⟩,?_,?_,hseek⟩⟩⟩,?_,?_,fun _ => ?_⟩,
      hspot.keeps,hspot.err⟩
    · simp only [hat.lf]
    · simp only [hat.lf, framePos, if_neg h0]
    · simp only [hat.lf]
    · simp only [hat.lf]
    · simp only [hat.lf]
    · simp only [hseek]
    · rw [hseek]
      exact ⟨hbefore,hafter⟩

theorem stays {m' : Nat} {t' : KeyTree m'} {fs' : List Int} (h : Shelf s' t' fs' D os live ent vals)
    (hk : Keeps s s' (D ++ os)) (ha : Allots s.ctx s'.ctx)
    (hz : s.ctx.shared = true → ZSUPER ∈ os ∨ s.ctx.super.scroot = ZSUPER) : Remains s s' := by
  have hroot : s'.disk.Has s.ctx.super.scroot := by
    obtain ⟨m',rfl⟩ : ∃ k, m' = k + 1 := ⟨m' - 1,by have := h.pos; omega⟩
    rw [← hk.root, ← h.index.link]
    exact h.index.has Index.link_mem
  refine ⟨hk.isopen,hk.shared,hk.lckcnt,hk.root,ha,fun hs => ?_,fun _ => hroot,fun hs _ => ?_⟩
  · rcases hz hs with hos | hr
    · rw [hk.other ZSUPER (List.mem_append_right _ hos)]
      exact Block.SameInfo.refl _
    · rw [← hr]
      exact hk.info
  · rcases hz hs with hos | hr
    · exact h.index.store.has_used (List.mem_append_right _ (List.mem_append_right _ hos))
    · rw [← hr]
      exact hroot

end Shelf

theorem ends_locked_open {α : Type} {fn : String} {busy : α} {body : BT α} {P : α × St → Prop} (ho : Open os s)
    (hbody : (exec body s.entered).Ends E fun r => Remains s.entered r.2 ∧ P r) :
    (exec (locked fn busy body) s).Ends E fun r => ∃ s', Remains s.entered s' ∧ P (r.1, s') ∧ Out s' r.2 ∧
      Open os r.2 ∧ r.2.ctx.lckcnt = s.ctx.lckcnt := by
  simp only [locked, within, exec_bind, exec_enter ho, Prog.Outcome.bind_done, if_true]
  refine hbody.bind fun r hr => ?_
  obtain ⟨s1,hex,hopen,hout,hcnt⟩ := exec_leave ho hr.1
  rw [hex, Prog.Outcome.bind_done, exec_pure, Prog.Outcome.ends_done]
  exact ⟨r.2,hr.1,hr.2,hout,hopen,hcnt⟩

theorem Stands.withCtx {c : Cursor Item} (h : Stands s t live ent vals c) (hlf : s'.ctx.lf = s.ctx.lf)
    (hstk : s'.ctx.stk = s.ctx.stk) : Stands s' t live ent vals c := by
  rcases h with ⟨f,p,hg⟩ | ⟨n,f,d,p,e,r,after,ps,lvs,v,rvs,hv⟩
  · refine Or.inl ⟨f,p,⟨hg.plug,⟨?_,?_,?_⟩,?_,?_,hg.cursor⟩⟩
    · rw [hlf, hg.link.blk]
    · rw [hlf]
      exact hg.link.pos
    · rw [hstk, hg.link.stack]
    · rw [hlf, hg.exct]
    · rw [hlf, hg.draddr]
  · have hon := hv.onKey
    have hdup := hv.onDup
    refine Or.inr ⟨n,f,d,p,e,r,after,ps,lvs,v,rvs,⟨hv.plug,⟨?_,?_,?_,?_,hon.ents⟩,?_,hv.right,hv.chained,hv.split,?_,
      hv.cursor⟩⟩
    · rw [hlf, hon.blk]
    · rw [hlf, hon.pos]
    · rw [hstk, hon.stack]
    · rw [hlf, hon.exct]
    · rw [hlf, hv.lfkey]
    · rw [OnDup, hlf]
      exact hdup

theorem Place.withCtx {o : Option (Cursor Item)} (h : Place s t live ent vals o) (hlf : s'.ctx.lf = s.ctx.lf)
    (hstk : s'.ctx.stk = s.ctx.stk) (hshared : s'.ctx.shared = s.ctx.shared) : Place s' t live ent vals o := by
  cases o with
  | none => exact ⟨by rw [hlf, h.blk],by rw [hlf, h.exct],by rw [hlf, h.draddr]⟩
  | some c =>
      refine ⟨h.1.withCtx hlf hstk,fun hs => ?_⟩
      rw [Tracks, hlf]
      exact h.2 (hshared ▸ hs)

end Btlib
