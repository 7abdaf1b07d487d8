import Btlib.Walk.Stands

namespace Btlib

open Multiway Links

variable [Build] {n m : Nat} {s s' : St} {fs D os : List Int} {live : Finset (Int × Nat)}
  {ent : Int × Nat → DKey} {vals : KeyEnt → List Int} {t : KeyTree m} {e : KeyEnt} {r : List KeyEnt} {dir : Int}
  {c : Cursor Item} {bs as : List KeyEnt}

def follow {α : Type} (dir : Int) (c : Cursor α) : Option (α × Cursor α) :=
  if dir = ZNEXT then c.next else c.prev

omit [Build] in
theorem follow_cur {α : Type} (dir : Int) {c c' : Cursor α} {x : α} (h : follow dir c = some (x, c')) :
    c'.cur = some x := by
  rw [follow] at h
  split at h
  · exact Cursor.cur_next h
  · exact Cursor.cur_prev h

-- What a move owes, when the entries `bs` are before the place it starts from and `as` behind it.
theorem Shelf.moved_next (bs as : List KeyEnt) (hb : Sized) (h : Shelf s t fs D os live ent vals) :
    Moved s ZNEXT t bs as (Goes s t live ent vals (Cursor.next ⟨items vals bs, none, items vals as⟩)) := by
  refine ⟨fun hnil s' ho => ⟨⟨ho.disk,ho.ctx⟩,?_⟩,fun k g d q e r hplug hre hbs has => ?_⟩
  · rw [if_pos rfl] at hnil
    rw [hnil]
    exact ⟨rfl,ho.blk,ho.exct,ho.draddr⟩
  · rw [if_pos rfl] at hbs
    obtain ⟨ps,lvs,v,rvs,a,hvs,hend,hc,hon,hex⟩ := h.exec_takeKey ZNEXT hb hplug hre
    rw [if_pos rfl] at hend
    subst hend
    obtain ⟨after,hright⟩ := h.right hre (p := q)
    obtain ⟨hmem,-,-⟩ := h.entry hplug hre
    rw [hex, Prog.Outcome.ends_done]
    have hnext : Cursor.next ⟨items vals bs, none, items vals as⟩ =
        some ((e.key, v), ⟨items vals bs, some (e.key, v), rvs.map (e.key, ·) ++ items vals after⟩) := by
      rw [← has rfl, hright, items, items, List.flatMap_cons, hvs]
      simp [Cursor.next, items]
    rw [hnext]
    refine ⟨⟨rfl,rfl⟩,rfl,(h.index.has hmem).ne_null,Or.inr ⟨k,g,d,q,e,r,after,ps,[],v,rvs,hplug,?_,rfl,hright,hc,hvs,hon,?_⟩⟩
    · exact ⟨rfl,rfl,rfl,rfl,hre⟩
    · rw [hbs]
      simp

theorem Shelf.moved_prev (bs as : List KeyEnt) (hb : Sized) (h : Shelf s t fs D os live ent vals)
    (hbas : t.inorder = bs ++ as) :
    Moved s ZPREV t bs as (Goes s t live ent vals (Cursor.prev ⟨items vals bs, none, items vals as⟩)) := by
  refine ⟨fun hnil s' ho => ⟨⟨ho.disk,ho.ctx⟩,?_⟩,fun k g d q e r hplug hre hbs _ => ?_⟩
  · rw [if_neg (by decide)] at hnil
    rw [hnil]
    exact ⟨rfl,ho.blk,ho.exct,ho.draddr⟩
  · rw [if_neg (by decide)] at hbs
    obtain ⟨ps,lvs,v,rvs,a,hvs,hend,hc,hon,hex⟩ := h.exec_takeKey ZPREV hb hplug hre
    rw [if_neg (by decide)] at hend
    subst hend
    obtain ⟨after,hright⟩ := h.right hre (p := q)
    obtain ⟨hmem,-,-⟩ := h.entry hplug hre
    have hafter : after = as := by
      have hin := inorder_behind hright (d := d)
      rw [hplug, hbas, ← hbs] at hin
      simpa using hin.symm
    rw [hex, Prog.Outcome.ends_done]
    have hprev : Cursor.prev ⟨items vals bs, none, items vals as⟩ = some ((e.key, v),
        ⟨items vals ((Path.step g q).left ++ d.inorder) ++ lvs.map (e.key, ·), some (e.key, v), items vals as⟩) := by
      have hitems : items vals bs =
          items vals ((Path.step g q).left ++ d.inorder) ++ lvs.map (e.key, ·) ++ [(e.key, v)] := by
        rw [← hbs, items_append, items_single, hvs, List.map_append, List.append_assoc]
        rfl
      rw [hitems, Cursor.prev_append]
      rfl
    rw [hprev]
    refine ⟨⟨rfl,rfl⟩,rfl,(h.index.has hmem).ne_null,
      Or.inr ⟨k,g,d,q,e,r,after,ps,lvs,v,[],hplug,?_,rfl,hright,hc,hvs,hon,?_⟩⟩
    · exact ⟨rfl,rfl,rfl,rfl,hre⟩
    · rw [hafter]
      rfl

-- The place a move of the index starts from: the entries before it, and those behind it.
def Departs (s : St) (t : KeyTree m) (dir : Int) (bs as : List KeyEnt) : Prop :=
  (∃ (f : KeyFrame 0) (p : KeyPath 1 m), p.plug (f.fill BTree.nil) = t ∧ AtLink s f p ∧ s.ctx.lf.lfexct = false ∧
    s.ctx.lf.draddr = ZNULL ∧ bs = (Path.step f p).left ∧ as = (Path.step f p).right) ∨
  ∃ (n : Nat) (f : KeyFrame n) (d : KeyTree n) (p : KeyPath (n + 1) m) (e : KeyEnt) (r : List KeyEnt),
    p.plug (f.fill d) = t ∧ OnKey s f p e r ∧
      if dir = ZNEXT then bs = (Path.step f p).left ++ d.inorder ++ [e] ∧ (Path.step f p).right = e :: as
      else bs = (Path.step f p).left ++ d.inorder ∧ as = (Path.step f p).right

omit [Build] in
theorem Departs.append (h : Departs s t dir bs as) : t.inorder = bs ++ as := by
  rcases h with ⟨f,p,rfl,-,-,-,rfl,rfl⟩ | ⟨n,f,d,p,e,r,rfl,-,h⟩
  · exact ((Path.step f p).inorder_plug BTree.nil).trans (by simp)
  · split at h
    · obtain ⟨rfl,hright⟩ := h
      exact (inorder_behind hright (d := d)).trans (by simp)
    · obtain ⟨rfl,rfl⟩ := h
      exact (Path.step f p).inorder_plug d

omit [Build] in
theorem Departs.withCtx {c : Ctx} (h : Departs s t dir bs as) (hlf : c.lf = s.ctx.lf) (hstk : c.stk = s.ctx.stk) :
    Departs ⟨c,s.disk⟩ t dir bs as := by
  rcases h with ⟨f,p,hplug,hl,hx,hd,hbs,has⟩ | ⟨n,f,d,p,e,r,hplug,hon,h⟩
  · refine Or.inl ⟨f,p,hplug,⟨?_,?_,hstk.trans hl.stack⟩,?_,?_,hbs,has⟩ <;> simp only [hlf]
    · exact hl.blk
    · exact hl.pos
    · exact hx
    · exact hd
  · refine Or.inr ⟨n,f,d,p,e,r,hplug,⟨?_,?_,hstk.trans hon.stack,?_,hon.ents⟩,h⟩ <;> simp only [hlf]
    · exact hon.blk
    · exact hon.pos
    · exact hon.exct

-- The entries that a move from the key `k` has behind it.
def Ahead (dir : Int) (k : Key) (e : KeyEnt) : Prop := if dir = ZNEXT then e.key ≤ k else e.key < k

structure CutAt (dir : Int) (k : Key) (bs as : List KeyEnt) : Prop where
  before : ∀ e ∈ bs, Ahead dir k e
  after : ∀ e ∈ as, ¬ Ahead dir k e

omit [Build] in
theorem CutAt.unique {k : Key} {bs' as' : List KeyEnt} (h : CutAt dir k bs as) (h' : CutAt dir k bs' as')
    (heq : bs ++ as = bs' ++ as') : bs = bs' ∧ as = as' :=
  Cursor.cut_unique heq h.before h.after h'.before h'.after

omit [Build] in
theorem cutAt_gap {k : Key} (hbs : ∀ e ∈ bs, e.key < k) (has : ∀ e ∈ as, k < e.key) : CutAt dir k bs as := by
  refine ⟨fun e he => ?_,fun e he => ?_⟩ <;> rw [Ahead] <;> split
  · exact (hbs e he).le
  · exact hbs e he
  · exact not_le.2 (has e he)
  · exact (has e he).not_gt

omit [Build] in
theorem cutAt_key {l : List KeyEnt} (h : Sorted KeyEnt.key (l ++ e :: r))
    (hcut : if dir = ZNEXT then bs = l ++ [e] ∧ as = r else bs = l ∧ as = e :: r) : CutAt dir e.key bs as := by
  have hl : ∀ x ∈ l, x.key < e.key := fun x hx => h.lt hx List.mem_cons_self
  have hr : ∀ x ∈ r, e.key < x.key := fun x hx => by
    have h' : Sorted KeyEnt.key ((l ++ [e]) ++ r) := by simpa using h
    exact h'.lt (by simp) hx
  split at hcut
  all_goals
    rename_i hd
    obtain ⟨rfl,rfl⟩ := hcut
    refine ⟨fun x hx => ?_,fun x hx => ?_⟩
  · rw [Ahead, if_pos hd]
    rcases List.mem_append.1 hx with hx | hx
    · exact (hl x hx).le
    · exact (List.mem_singleton.1 hx ▸ le_rfl)
  · rw [Ahead, if_pos hd]
    exact not_le.2 (hr x hx)
  · rw [Ahead, if_neg hd]
    exact hl x hx
  · rw [Ahead, if_neg hd]
    rcases List.mem_cons.1 hx with rfl | hx
    · exact lt_irrefl _
    · exact (hr x hx).not_gt

theorem Shelf.fuel (h : Shelf s t fs D os live ent vals) (hf : t.inorder.length + 3 ≤ FUEL) : m + 2 ≤ FUEL := by
  have h1 := BTree.height_le_length_ids h.wf
  have h2 := BTree.length_ids_le_succ h.wf
  omega

theorem Shelf.ends_next (hb : Sized) (h : Shelf s t fs D os live ent vals)
    (hf : t.inorder.length + 3 ≤ FUEL) (hl : Departs s t ZNEXT bs as) :
    (exec (bnxtkyLoop FUEL) s).Ends (Refused s.ctx.super.scroot)
      (Goes s t live ent vals (Cursor.next ⟨items vals bs, none, items vals as⟩)) := by
  have hfuel := h.fuel hf
  have hQ := h.moved_next bs as hb
  rcases hl with ⟨f,p,rfl,hlink,hx,hd,rfl,rfl⟩ | ⟨n,f,d,p,e,r,rfl,hon,hl⟩
  · have hm := p.height_eq
    rcases exec_bnxtkyLoop_up p.depth FUEL h.index hlink (Or.inl hx) hd rfl (by omega) with
      ⟨hnil,s1,hex,ho⟩ | ⟨k,g,c1,q,e1,r1,hbeh,hex⟩
    · rw [hex]
      exact hQ.none hnil s1 ho
    · rw [hex, Prog.Outcome.ends_bind]
      have hbs : (if ZNEXT = ZNEXT then (Path.step g q).left ++ c1.inorder = (Path.step f p).left else
          (Path.step g q).left ++ c1.inorder ++ [e1] = (Path.step f p).left) := by
        rw [if_pos rfl, hbeh.left]
        exact List.append_nil _
      have hreset : s.reset = s := by rw [St.reset, ← hd]
      have htake := hQ.some k g c1 q e1 r1 hbeh.plug hbeh.ents hbs fun _ => hbeh.right
      rwa [hreset] at htake
  · rw [if_pos rfl] at hl
    obtain ⟨rfl,hright⟩ := hl
    exact Btlib.ends_next h.index h.wf hon hfuel hfuel hright hQ

theorem Shelf.ends_prev (hb : Sized) (h : Shelf s t fs D os live ent vals)
    (hf : t.inorder.length + 3 ≤ FUEL) (hl : Departs s t ZPREV bs as) :
    (exec (bprvkyLoop FUEL) s).Ends (Refused s.ctx.super.scroot)
      (Goes s t live ent vals (Cursor.prev ⟨items vals bs, none, items vals as⟩)) := by
  have hfuel := h.fuel hf
  rcases hl with ⟨f,p,rfl,hlink,hx,hd,rfl,rfl⟩ | ⟨n,f,d,p,e,r,rfl,hon,hl⟩
  · have hQ := h.moved_prev (Path.step f p).left (Path.step f p).right hb
      ((Path.step f p).inorder_plug BTree.nil |>.trans (by simp))
    exact ends_prev_gap h.index h.wf hlink hx hfuel hQ
  · rw [if_neg (by decide)] at hl
    obtain ⟨rfl,rfl⟩ := hl
    have hQ := h.moved_prev ((Path.step f p).left ++ d.inorder) (Path.step f p).right hb
      ((Path.step f p).inorder_plug d)
    exact Btlib.ends_prev h.index h.wf hon hfuel hfuel hQ

end Btlib
