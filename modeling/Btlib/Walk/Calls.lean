import Btlib.Walk.Steps

namespace Btlib

open Multiway Links

variable [Build] {n m : Nat} {s s' s1 : St} {fs D os : List Int} {live : Finset (Int × Nat)}
  {ent : Int × Nat → DKey} {vals : KeyEnt → List Int} {t : KeyTree m} {e : KeyEnt} {r : List KeyEnt} {dir v : Int}
  {c : Cursor Item} {bs as : List KeyEnt} {move : BT (Option Item)}

theorem exec_walk_dup (h : exec (btduppos dir 0) s = .done ((0, v), s1)) :
    exec (walk dir move) s = .done (some (keycpy s1.ctx.lf.lfkey, v), s1) := by
  simp [walk, h]

theorem exec_walk_move (h : exec (btduppos dir 0) s = .done ((ZNULL, v), s1)) :
    exec (walk dir move) s = exec (refind >>= fun _ => move) s1 := by
  simp [walk, h]

-- The next duplicate of the key, or the place that a move of the index starts from: from the key last found, where
-- it can be told.
inductive Along (s : St) (t : KeyTree m) (live : Finset (Int × Nat)) (ent : Int × Nat → DKey)
    (vals : KeyEnt → List Int) (dir : Int) (c : Cursor Item) : Prop
  | dup (x : Item) (c' : Cursor Item) (s' : St) (hc : follow dir c = some (x, c'))
      (hex : exec (btduppos dir 0) s = .done ((0, x.2), s')) (hkey : keycpy s'.ctx.lf.lfkey = x.1) (hw : Walked s s')
      (hs : Stands s' t live ent vals c')
  | move (bs as : List KeyEnt) (v : Int) (s' : St)
      (hc : follow dir c = follow dir ⟨items vals bs, none, items vals as⟩)
      (hex : exec (btduppos dir 0) s = .done ((ZNULL, v), s')) (hw : Walked s s')
      (hkey : s'.ctx.lf.lfkey = s.ctx.lf.lfkey) (hblk : s'.ctx.lf.lfblk ≠ ZNULL) (hd : Departs s' t dir bs as)
      (ha : Tracks s c → CutAt dir s.ctx.lf.lfkey bs as)

theorem Shelf.item_mem (h : Shelf s t fs D os live ent vals) (he : e ∈ t.inorder) : ∃ v, (e.key, v) ∈ items vals [e] := by
  obtain ⟨ps,hc⟩ := h.chained e he
  obtain ⟨lvs,v,rvs,hvs,-⟩ := hc.ends ZNEXT h.legible
  refine ⟨v,?_⟩
  rw [items_single, hvs]
  simp

omit [Build] in
theorem items_mono {es es' : List KeyEnt} (h : es ⊆ es') : items vals es ⊆ items vals es' := fun x hx => by
  obtain ⟨e,he,hx⟩ := List.mem_flatMap.1 hx
  exact List.mem_flatMap.2 ⟨e,h he,hx⟩

theorem Shelf.cut_gap (h : Shelf s t fs D os live ent vals) {f : KeyFrame 0} {p : KeyPath 1 m}
    (hg : InGap s t c vals f p) (hk : Tracks s c) :
    CutAt dir s.ctx.lf.lfkey (Path.step f p).left (Path.step f p).right := by
  have hin : t.inorder = (Path.step f p).left ++ (Path.step f p).right := by
    rw [← hg.plug]
    exact ((Path.step f p).inorder_plug BTree.nil).trans (by simp)
  have hk := hk.2 (by rw [hg.cursor])
  rw [hg.cursor] at hk
  refine cutAt_gap (fun e he => ?_) fun e he => ?_
  · obtain ⟨v,hv⟩ := h.item_mem (hin ▸ List.mem_append_left _ he)
    exact hk.1 _ (items_mono (List.cons_subset.2 ⟨he,List.nil_subset _⟩) hv)
  · obtain ⟨v,hv⟩ := h.item_mem (hin ▸ List.mem_append_right _ he)
    exact hk.2 _ (items_mono (List.cons_subset.2 ⟨he,List.nil_subset _⟩) hv)

theorem OnValue.cut {f : KeyFrame n} {d : KeyTree n} {p : KeyPath (n + 1) m} {after : List KeyEnt}
    {ps : List (Int × Nat)} {lvs rvs : List Int} {w : Int} (hv : OnValue s t c live ent vals f d p e r after ps lvs w rvs)
    (h : Shelf s t fs D os live ent vals)
    (hcut : if dir = ZNEXT then bs = (Path.step f p).left ++ d.inorder ++ [e] ∧ as = after
      else bs = (Path.step f p).left ++ d.inorder ∧ as = e :: after) : CutAt dir s.ctx.lf.lfkey bs as := by
  rw [hv.lfkey]
  refine cutAt_key ?_ hcut
  rw [← inorder_behind hv.right, hv.plug]
  exact h.sorted

theorem Shelf.departs (dir : Int) (h : Shelf s t fs D os live ent vals) (hs : Stands s t live ent vals c) (hk : Tracks s c) :
    ∃ bs as, Departs s t dir bs as ∧ CutAt dir s.ctx.lf.lfkey bs as := by
  rcases hs with ⟨f,p,hg⟩ | ⟨n,f,d,p,e,r,after,ps,lvs,v,rvs,hv⟩
  · exact ⟨_,_,Or.inl ⟨f,p,hg.plug,hg.link,hg.exct,hg.draddr,rfl,rfl⟩,h.cut_gap hg hk⟩
  · by_cases hd : dir = ZNEXT
    · refine ⟨(Path.step f p).left ++ d.inorder ++ [e],after,Or.inr ⟨n,f,d,p,e,r,hv.plug,hv.onKey,?_⟩,hv.cut h ?_⟩
      · rw [if_pos hd]
        exact ⟨rfl,hv.right⟩
      · rw [if_pos hd]
        exact ⟨rfl,rfl⟩
    · refine ⟨(Path.step f p).left ++ d.inorder,e :: after,Or.inr ⟨n,f,d,p,e,r,hv.plug,hv.onKey,?_⟩,hv.cut h ?_⟩
      · rw [if_neg hd]
        exact ⟨rfl,hv.right.symm⟩
      · rw [if_neg hd]
        exact ⟨rfl,rfl⟩

theorem Shelf.walk_gap (h : Shelf s t fs D os live ent vals) {f : KeyFrame 0} {p : KeyPath 1 m}
    (hg : InGap s t c vals f p) : Along s t live ent vals dir c := by
  have hblk : s.ctx.lf.lfblk ≠ ZNULL := by
    rw [hg.link.blk]
    exact (h.index.has (hg.plug ▸ Index.mem_plug.2 (Or.inl List.mem_cons_self))).ne_null
  exact .move (Path.step f p).left (Path.step f p).right 0 s (by rw [hg.cursor])
    (Legible.exec_btduppos_gap hg.draddr hg.exct) ⟨rfl,rfl⟩ rfl hblk
    (Or.inl ⟨f,p,hg.plug,hg.link,hg.exct,hg.draddr,rfl,rfl⟩) fun hk => h.cut_gap hg hk

theorem OnValue.departs {f : KeyFrame n} {d : KeyTree n} {p : KeyPath (n + 1) m} {after : List KeyEnt}
    {ps : List (Int × Nat)} {lvs rvs : List Int} {w : Int} (hv : OnValue s t c live ent vals f d p e r after ps lvs w rvs)
    (hdir : dir = ZNEXT ∨ dir = ZPREV) (hlast : (if dir = ZNEXT then rvs else lvs) = [])
    (h : Shelf s t fs D os live ent vals)
    (hex : exec (btduppos dir 0) s = .done ((ZNULL, v), { s with ctx.lf := { s.ctx.lf with draddr := ZNULL } })) :
    Along s t live ent vals dir c := by
  have hon := hv.onKey
  have hblk : s.ctx.lf.lfblk ≠ ZNULL := by
    rw [hon.blk]
    exact (hon.has (h := hv.plug ▸ h.index)).2.1
  have hon' : OnKey { s with ctx.lf := { s.ctx.lf with draddr := ZNULL } } f p e r :=
    ⟨hon.blk,hon.pos,hon.stack,hon.exct,hon.ents⟩
  rcases hdir with rfl | rfl
  · rw [if_pos rfl] at hlast
    refine .move ((Path.step f p).left ++ d.inorder ++ [e]) after v _ ?_ hex ⟨rfl,rfl⟩ rfl hblk
      (Or.inr ⟨n,f,d,p,e,r,hv.plug,hon',?_⟩) fun _ => ?_
    · rw [follow, follow, if_pos rfl, if_pos rfl, hv.cursor, hlast]
      refine Cursor.next_congr ?_ rfl
      rw [items_append vals _ [e], items_single, hv.split, hlast, List.map_append, ← List.append_assoc]
      exact (List.append_nil _).symm
    · rw [if_pos rfl]
      exact ⟨rfl,hv.right⟩
    · exact hv.cut h (by rw [if_pos rfl]; exact ⟨rfl,rfl⟩)
  · rw [if_neg (by decide)] at hlast
    refine .move ((Path.step f p).left ++ d.inorder) (e :: after) v _ ?_ hex ⟨rfl,rfl⟩ rfl hblk
      (Or.inr ⟨n,f,d,p,e,r,hv.plug,hon',?_⟩) fun _ => ?_
    · rw [follow, follow, if_neg (by decide), if_neg (by decide), hv.cursor, hlast]
      refine Cursor.prev_congr (List.append_nil _) ?_
      change [(e.key, w)] ++ (rvs.map (e.key, ·) ++ items vals after) = items vals (e :: after)
      rw [items_cons, hv.split, hlast]
      rfl
    · rw [if_neg (by decide)]
      exact ⟨rfl,hv.right.symm⟩
    · exact hv.cut h (by rw [if_neg (by decide)]; exact ⟨rfl,rfl⟩)

theorem OnValue.dup {f : KeyFrame n} {d : KeyTree n} {p : KeyPath (n + 1) m} {after : List KeyEnt}
    {ps : List (Int × Nat)} {lvs rvs : List Int} {w : Int} (us ws : List (Int × Nat)) (q : Int × Nat)
    (lvs' rvs' : List Int) (w' : Int) (h : Shelf s t fs D os live ent vals)
    (hv : OnValue s t c live ent vals f d p e r after ps lvs w rvs) (hsplit : vals e = lvs' ++ w' :: rvs')
    (hps : ps = us ++ q :: ws) (hlen : us.length = lvs'.length)
    (hstep : follow dir c = some ((e.key, w'),
      ⟨items vals ((Path.step f p).left ++ d.inorder) ++ lvs'.map (e.key, ·), some (e.key, w'),
        rvs'.map (e.key, ·) ++ items vals after⟩))
    (hex : exec (btduppos dir 0) s = .done ((0, w'), { s with ctx.lf := { s.ctx.lf with draddr := addr q } })) :
    Along s t live ent vals dir c := by
  have hon := hv.onKey
  refine .dup (e.key, w') _ { s with ctx.lf := { s.ctx.lf with draddr := addr q } } hstep hex ?_ ⟨rfl,rfl⟩
    (Or.inr ⟨n,f,d,p,e,r,after,ps,lvs',w',rvs',hv.plug,⟨hon.blk,hon.pos,hon.stack,hon.exct,hon.ents⟩,hv.lfkey,hv.right,
      hv.chained,hsplit,Or.inr ⟨us,q,ws,hps,hlen,rfl⟩,rfl⟩)
  change keycpy s.ctx.lf.lfkey = e.key
  rw [hv.lfkey]
  exact h.copies e (h.mem hv.plug hv.right)

theorem Shelf.walk_value (hb : Sized) (h : Shelf s t fs D os live ent vals) (hdir : dir = ZNEXT ∨ dir = ZPREV)
    {f : KeyFrame n} {d : KeyTree n} {p : KeyPath (n + 1) m} {after : List KeyEnt}
    {ps : List (Int × Nat)} {lvs rvs : List Int} {w : Int}
    (hv : OnValue s t c live ent vals f d p e r after ps lvs w rvs) : Along s t live ent vals dir c := by
  have hon := hv.onKey
  obtain ⟨hmem,hlt,hent⟩ := h.entry hv.plug hon.ents
  rcases hv.onDup with ⟨rfl,hd⟩ | ⟨us,q,ws,rfl,hlen,hd⟩
  · obtain ⟨-,hdup,hvs⟩ := hv.chained.resolve_right fun hc => hc.1 rfl
    rw [hv.split] at hvs
    have hends : lvs = [] ∧ rvs = [] := by
      cases lvs <;> simp_all
    have honto : Onto s f.id f.le.length e := ⟨h.index.has hmem,hent,hon.blk,hon.pos⟩
    refine hv.departs (v := 0) hdir (by split <;> simp [hends]) h ?_
    rw [Legible.exec_btduppos_plain honto hd hon.exct hdup, ← hd]
  · obtain ⟨-,-,-,-,hl⟩ := hv.chained.resolve_left fun hc => by simp at hc
    rw [hv.split] at hl
    have hcell := hl.middle hlen
    rcases hdir with rfl | rfl
    · have hws : ws.length = rvs.length := by
        have := hl.length_eq
        simp only [List.length_append, List.length_cons] at this
        omega
      cases ws with
      | nil =>
          have hrvs : rvs = [] := List.length_eq_zero_iff.1 hws.symm
          refine hv.departs (v := 0) (Or.inl rfl) (by rw [if_pos rfl, hrvs]) h ?_
          exact h.legible.exec_btduppos_end hb hon.exct hd hcell (if_pos rfl)
      | cons q' ws =>
          obtain ⟨w',rvs,rfl⟩ : ∃ w' rvs', rvs = w' :: rvs' := by
            cases rvs with
            | nil => simp at hws
            | cons w' rvs => exact ⟨w',rvs,rfl⟩
          have hl' : Linked (Cell live ent e.key) addr ZNULL ZNULL ((us ++ [q]) ++ q' :: ws)
            ((lvs ++ [w]) ++ w' :: rvs) := by simpa using hl
          have hcell' := hl'.middle (by simp [hlen])
          refine hv.dup (us ++ [q]) ws q' (lvs ++ [w]) rvs w' h
            (by simp [hv.split]) (by simp) (by simp [hlen]) ?_
            (h.legible.exec_btduppos_step hb hon.exct hd hcell (if_pos rfl) hcell')
          rw [hv.cursor]
          simp [follow, Cursor.next]
    · rcases List.eq_nil_or_concat' us with rfl | ⟨us,q',rfl⟩
      · have hlvs : lvs = [] := List.length_eq_zero_iff.1 hlen.symm
        refine hv.departs (v := 0) (Or.inr rfl) (by rw [if_neg (by decide), hlvs]) h ?_
        exact h.legible.exec_btduppos_end hb hon.exct hd hcell (if_neg (by decide))
      · obtain ⟨lvs,w',rfl⟩ : ∃ lvs' w', lvs = lvs' ++ [w'] :=
          (List.eq_nil_or_concat' lvs).resolve_left fun hnil => by simp [hnil] at hlen
        have hl' : Linked (Cell live ent e.key) addr ZNULL ZNULL (us ++ q' :: q :: ws) (lvs ++ w' :: w :: rvs) := by
          simpa using hl
        have hlen' : us.length = lvs.length := by simpa using hlen
        have hcell' := hl'.middle hlen'
        refine hv.dup us (q :: ws) q' lvs (w :: rvs) w' h
          (by simp [hv.split]) (by simp) hlen' ?_
          (h.legible.exec_btduppos_step hb hon.exct hd hcell ((if_neg (by decide)).trans (back_append _ _ _)) hcell')
        rw [hv.cursor]
        simp only [follow, if_neg (show ¬ ZPREV = ZNEXT by decide), List.map_append, List.map_cons, List.map_nil,
          ← List.append_assoc, Cursor.prev_append]
        rfl

end Btlib
