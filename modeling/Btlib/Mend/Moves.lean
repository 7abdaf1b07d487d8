import Btlib.Mend.Pair

namespace Btlib

open Multiway

variable [Build] {α β : Type} {m : Nat} {s s' : St} {fs os C : List Int} {a b c d : Int} {la lb l r l' r' : List KeyEnt}
  {e x : KeyEnt} {f : KeyFrame 1} {p : KeyPath 2 m}

omit [Build] in
theorem exec_then {x : BT α} {f : α → BT β} {a : α} (h : exec x s = .done (a, s')) :
    exec (x >>= f) s = exec (f a) s' := by
  rw [exec_bind, h, Prog.Outcome.bind_done]

-- The two leaves and their parent, while keys are moved about.
structure Trio (s0 s : St) (f : KeyFrame 1) (a b : Int) (la : List KeyEnt) (e : KeyEnt) (lb : List KeyEnt) : Prop where
  turned : Turned s0 s [f.id,a,b]
  left : (s.disk.block a).Bare la
  right : (s.disk.block b).Bare lb
  parent : (s.disk.block f.id).Shows (f.le ++ e :: f.re) (pairLinks f a b)

omit [Build] in
theorem keyblk_mid {b : Block} (h : b.Bare (l ++ x :: r)) : b.keyblk l.length = x := by
  have := (Reads.append_iff.1 h.keys).2.1
  rwa [zero_add] at this

omit [Build] in
-- What `bsrhbk` finds at the position of an entry.
theorem exec_bsrhbk_mid (hc : s.disk.Has c) (h : (s.disk.block c).Bare (l ++ x :: r)) : ∃ o : Srh, o.result = 0 ∧
    exec (bsrhbk c { loc := l.length }) s = .done (o, { s with ctx.keyent := x }) := by
  have hlt : (l.length : Int) < (s.disk.block c).nkeys := by
    rw [h.nkeys]
    simp only [List.length_append, List.length_cons]
    omega
  have hsrh := exec_bsrhbk_loc hc { loc := l.length } (Int.natCast_nonneg _) hlt
  simp only [keyblk_mid h] at hsrh
  exact ⟨_,rfl,hsrh⟩

omit [Build] in
-- What `bsrhlf` finds there: the links on both sides of the entry.
theorem exec_bsrhlf_at {ll lr : List Int} (hc : s.disk.Has c)
    (h : (s.disk.block c).Shows (l ++ e :: r) (ll ++ a :: b :: lr)) (hll : ll.length = l.length)
    (hblk : s.ctx.lf.lfblk = c) (hpos : s.ctx.lf.lfpos = l.length) : ∃ o : Srh, o.result = 0 ∧ o.link1 = a ∧ o.link2 = b ∧
      exec bsrhlf s = .done (o, { s with ctx.keyent := e }) := by
  have hlt : (l.length : Int) < (s.disk.block c).nkeys := by
    rw [h.nkeys]
    simp only [List.length_append, List.length_cons]
    omega
  have hsrh := exec_bsrhbk_loc hc { loc := l.length } (Int.natCast_nonneg _) hlt
  have hkeys := (Reads.append_iff.1 h.keys).2.1
  have hlinks := (Reads.append_iff.1 h.links).2
  rw [zero_add] at hkeys hlinks
  rw [hll] at hlinks
  rw [hkeys, hlinks.1, hlinks.2.1] at hsrh
  refine ⟨{ key := keycpy e.key, loc := l.length, val := e.val, link1 := a, link2 := b, result := 0 },rfl,rfl,rfl,?_⟩
  unfold bsrhlf
  refine (exec_then (exec_get _)).trans ?_
  simp only [hblk, hpos]
  refine (exec_then hsrh).trans ?_
  refine (exec_then (exec_setLf _ _)).trans ?_
  simp only [← hpos]
  rfl

-- An entry goes from `c` to `d`.
theorem exec_moveKeys_step (hc : s.disk.Has c) (hd : s.disk.Has d) (hne : c ≠ d) (hcC : c ∈ C) (hdC : d ∈ C)
    (hb : (s.disk.block c).Bare (l ++ x :: r)) (ht : (s.disk.block d).Bare (l' ++ r'))
    (hl : ∀ y ∈ l', y.key < x.key) (hr : ∀ y ∈ r', x.key < y.key) (hroom : (l' ++ r').length < ZMXKEY) (dir : Int) :
    ∃ s', (∀ n, exec (moveKeys c d dir (n + 1) l.length) s =
        exec (moveKeys c d dir n (if dir < 0 then (l.length : Int) - 1 else l.length)) s') ∧
      Turned s s' C ∧ (s'.disk.block c).Bare (l ++ r) ∧ (s'.disk.block d).Bare (l' ++ x :: r') := by
  obtain ⟨o,ho,hsrh⟩ := exec_bsrhbk_mid hc hb
  have hrem := exec_bremky (s := { s with ctx.keyent := x }) hc (l.length : Int)
  have hblock : ({ s with ctx.keyent := x, disk := s.disk.put c ((s.disk.block c).remky l.length) } : St).disk.block d =
      s.disk.block d := Function.update_of_ne hne.symm _ _
  have hput := exec_bputky (s := { s with ctx.keyent := x, disk := s.disk.put c ((s.disk.block c).remky l.length) }) hd x
    ZNULL ZNULL (by rw [hblock, ht.nkeys]; omega)
  rw [hblock] at hput
  refine ⟨_,fun n => ?_,(((Turned.refl s C).keyent x).put hcC (Block.remky_sameInfo _ _)).put hdC
    (B := (s.disk.block d).putky x ZNULL ZNULL) (by rw [hblock]; exact Block.putky_sameInfo _ _ _ _),?_,?_⟩
  · rw [moveKeys]
    refine (exec_then hsrh).trans ?_
    rw [if_neg (by rw [ho]; decide)]
    exact (exec_then (exec_get _)).trans ((exec_then hrem).trans (exec_then hput))
  · rw [Disk.block_put, Function.update_of_ne hne, Disk.block_put, Function.update_self]
    exact hb.remky
  · rw [Disk.block_put, Function.update_self]
    exact ht.putky hl hr

theorem exec_moveKeys_left (hc : s.disk.Has b) (hd : s.disk.Has a) (hne : b ≠ a) (hbC : b ∈ C) (haC : a ∈ C)
    (ha : (s.disk.block a).Bare la) (hb : (s.disk.block b).Bare (l ++ r)) (hsort : Sorted KeyEnt.key (la ++ (l ++ r)))
    (hroom : la.length + l.length ≤ ZMXKEY) :
    ∃ s', exec (moveKeys b a 1 l.length 0) s = .done (some 0, s') ∧ Turned s s' C ∧
      (s'.disk.block a).Bare (la ++ l) ∧ (s'.disk.block b).Bare r := by
  induction l generalizing la s with
  | nil => exact ⟨s,rfl,.refl s C,by simpa using ha,hb⟩
  | cons x l ih =>
      have ha' : (s.disk.block a).Bare (la ++ []) := by simpa using ha
      obtain ⟨s1,hstep,ht,hb1,ha1⟩ := exec_moveKeys_step (l := []) hc hd hne hbC haC hb ha'
        (fun y hy => hsort.lt hy List.mem_cons_self) (fun y hy => absurd hy List.not_mem_nil)
        (by simp only [List.append_nil, List.length_cons] at hroom ⊢; omega) 1
      obtain ⟨s2,hrun,ht2,ha2,hb2⟩ := ih (ht.has hc) (ht.has hd) ha1 hb1 (by simpa using hsort)
        (by simp only [List.length_append, List.length_cons, List.length_nil] at hroom ⊢; omega)
      refine ⟨s2,(hstep l.length).trans hrun,ht.trans ht2,?_,hb2⟩
      rw [List.append_cons]
      exact ha2

theorem exec_moveKeys_right (hc : s.disk.Has a) (hd : s.disk.Has b) (hne : a ≠ b) (haC : a ∈ C) (hbC : b ∈ C)
    (ha : (s.disk.block a).Bare (l ++ r)) (hb : (s.disk.block b).Bare lb) (hsort : Sorted KeyEnt.key ((l ++ r) ++ lb))
    (hroom : r.length + lb.length ≤ ZMXKEY) :
    ∃ s', exec (moveKeys a b (-1) r.length ((l ++ r).length - 1)) s = .done (some (l.length - 1), s') ∧ Turned s s' C ∧
      (s'.disk.block a).Bare l ∧ (s'.disk.block b).Bare (r ++ lb) := by
  induction r using List.reverseRecOn generalizing lb s with
  | nil => exact ⟨s,by simp [moveKeys],.refl s C,by simpa using ha,hb⟩
  | append_singleton r x ih =>
      have hb' : (s.disk.block b).Bare ([] ++ lb) := hb
      have ha' : (s.disk.block a).Bare ((l ++ r) ++ x :: []) := by simpa using ha
      obtain ⟨s1,hstep,ht,ha1,hb1⟩ := exec_moveKeys_step hc hd hne haC hbC ha' hb'
        (fun y hy => absurd hy List.not_mem_nil) (fun y hy => hsort.lt (by simp) hy)
        (by simp only [List.nil_append, List.length_append, List.length_cons, List.length_nil] at hroom ⊢; omega) (-1)
      obtain ⟨s2,hrun,ht2,ha2,hb2⟩ := ih (ht.has hc) (ht.has hd) (by simpa using ha1)
        (show (s1.disk.block b).Bare (x :: lb) from hb1) (by simpa using hsort)
        (by simp only [List.length_append, List.length_cons, List.length_nil] at hroom ⊢; omega)
      refine ⟨s2,?_,ht.trans ht2,ha2,by simpa using hb2⟩
      have hlen : (((l ++ (r ++ [x])).length : Nat) : Int) - 1 = (l ++ r).length := by
        simp only [List.length_append, List.length_cons, List.length_nil]
        omega
      rw [hlen, List.length_append, List.length_singleton, hstep, if_pos (by decide)]
      exact hrun

theorem exec_last (hq : s.disk.Has f.id) (hc : s.disk.Has c) (hne : f.id ≠ c) (hqC : f.id ∈ C) (hcC : c ∈ C)
    (hlf : s.ctx.lf.lfblk = f.id) (hpos : s.ctx.lf.lfpos = f.le.length) (hsize : f.size < ZMXKEY)
    (hf : (s.disk.block f.id).Shows (f.le ++ e :: f.re) (pairLinks f a b)) (h : (s.disk.block c).Bare (l ++ x :: r)) :
    ∃ s', exec (do
        let r ← bsrhbk c { loc := l.length }
        if r.result ≠ 0 then bterr "BALBK1" QBALSE .none
        else
          let k ← get
          let nkeys ← bgtinf k.lf.lfblk .ZNKEYS
          let ppos := if k.lf.lfpos = nkeys then k.lf.lfpos - 1 else k.lf.lfpos
          brepky k.lf.lfblk ppos k.keyent a b
          bremky c l.length) s = .done ((), s') ∧
      Turned s s' C ∧ (s'.disk.block c).Bare (l ++ r) ∧
      (s'.disk.block f.id).Shows (f.le ++ x :: f.re) (pairLinks f a b) ∧
      ∀ d, d ≠ c → d ≠ f.id → s'.disk.block d = s.disk.block d := by
  obtain ⟨o,ho,hsrh⟩ := exec_bsrhbk_mid hc h
  have hnk := exec_bgtinf (s := { s with ctx.keyent := x }) hq .ZNKEYS
  have hn : (s.disk.block f.id).nkeys = f.size + 1 := by
    rw [hf.nkeys, Frame.size]
    simp only [List.length_append, List.length_cons]
    omega
  have hle : f.le.length ≤ f.size := Nat.le_add_right _ _
  have hrep := exec_brepky (s := { s with ctx.keyent := x }) hq f.le.length x a b (Int.natCast_nonneg _) (by omega)
  have hrem := exec_bremky (s := { s with
      ctx.keyent := x, disk := s.disk.put f.id ((s.disk.block f.id).repky f.le.length x a b) }) hc (l.length : Int)
  have hblock : (s.disk.put f.id ((s.disk.block f.id).repky f.le.length x a b)).block c = s.disk.block c :=
    Function.update_of_ne hne.symm _ _
  simp only [hblock] at hrem
  refine ⟨_,?_,(((Turned.refl s C).keyent x).put hqC (Block.repky_sameInfo _ f.le.length x a b)).put hcC
    (B := (s.disk.block c).remky l.length) (by rw [hblock]; exact Block.remky_sameInfo _ _),?_,?_,fun d hdc hdf => ?_⟩
  · refine (exec_then hsrh).trans ?_
    rw [if_neg (by rw [ho]; decide)]
    refine (exec_then (exec_get _)).trans ?_
    simp only [hlf]
    refine (exec_then hnk).trans ?_
    rw [Block.getInf_ZNKEYS, hn, hpos, if_neg (by omega)]
    exact (exec_then hrep).trans hrem
  · rw [Disk.block_put, Function.update_self]
    exact h.remky
  · rw [Disk.block_put, Function.update_of_ne hne, Disk.block_put, Function.update_self]
    exact Block.repky_shows hf (by rw [List.length_map, f.hl])
  · rw [Disk.block_put, Function.update_of_ne hdc, Disk.block_put, Function.update_of_ne hdf]

omit [Build] in
theorem exists_mid {n : Nat} (hn : n < l.length) : ∃ l1 x r1, l = l1 ++ x :: r1 ∧ l1.length = n :=
  ⟨l.take n,l[n],l.drop (n + 1),by rw [List.getElem_cons_drop, List.take_append_drop],
    by rw [List.length_take]; omega⟩

section Balance

variable {s0 : St} (h : Trio s0 s f a b la e lb) (hq : s0.disk.Has f.id) (ha : s0.disk.Has a) (hb : s0.disk.Has b)
  (hab : a ≠ b) (hqa : f.id ≠ a) (hqb : f.id ≠ b) (hlf : s.ctx.lf.lfblk = f.id) (hpos : s.ctx.lf.lfpos = f.le.length)
  (hsize : f.size < ZMXKEY) (hsort : Sorted KeyEnt.key (la ++ e :: lb))
include h hq ha hb hab hqa hqb hlf hpos hsize hsort

theorem exec_balbk1_left (hx : lb = l ++ x :: r) (hroom : la.length + l.length < ZMXKEY) :
    ∃ s', exec (balbk1Move a b b a 1 l.length 0 e) s = .done ((), s') ∧ Trio s0 s' f a b (la ++ e :: l) x r := by
  subst hx
  have hput := exec_bputky (h.turned.has ha) e ZNULL ZNULL (by rw [h.left.nkeys]; omega)
  have hl0 : (s.disk.block a).Bare (la ++ []) := by simpa using h.left
  have ht1 : Turned s { s with disk := s.disk.put a ((s.disk.block a).putky e ZNULL ZNULL) } [a,b] :=
    (Turned.refl s [a,b]).put (by simp) (Block.putky_sameInfo _ _ _ _)
  have ha1 : ((s.disk.put a ((s.disk.block a).putky e ZNULL ZNULL)).block a).Bare (la ++ [e]) := by
    rw [Disk.block_put, Function.update_self]
    exact hl0.putky (fun y hy => hsort.lt hy List.mem_cons_self) fun y hy => absurd hy List.not_mem_nil
  have hb1 : ((s.disk.put a ((s.disk.block a).putky e ZNULL ZNULL)).block b).Bare (l ++ x :: r) := by
    rw [Disk.block_put, Function.update_of_ne hab.symm]
    exact h.right
  obtain ⟨s2,hrun,ht2,ha2,hb2⟩ := exec_moveKeys_left (C := [a,b]) (ht1.has (h.turned.has hb)) (ht1.has (h.turned.has ha))
    hab.symm (by simp) (by simp) ha1 hb1 (by simpa using hsort)
    (by simp only [List.length_append, List.length_cons, List.length_nil]; omega)
  have ht12 := ht1.trans ht2
  have hf2 : (s2.disk.block f.id).Shows (f.le ++ e :: f.re) (pairLinks f a b) := by
    rw [ht12.other f.id (by simp [hqa, hqb])]
    exact h.parent
  have hctx := ht12.ctx
  obtain ⟨s3,hlast,ht3,hb3,hf3,ho3⟩ := exec_last (C := [f.id,a,b]) (l := []) (ht12.has (h.turned.has hq))
    (ht12.has (h.turned.has hb)) hqb (by simp) (by simp) (by rw [hctx]; exact hlf) (by rw [hctx]; exact hpos) hsize hf2 hb2
  refine ⟨s3,?_,(h.turned.trans (ht12.mono (by simp))).trans ht3,?_,hb3,hf3⟩
  · rw [balbk1Move]
    exact (exec_then hput).trans ((exec_then hrun).trans hlast)
  · rw [ho3 a hab hqa.symm, List.append_cons]
    exact ha2

theorem exec_balbk1_right (hx : la = l ++ x :: r) (hroom : r.length + lb.length < ZMXKEY) :
    ∃ s', exec (balbk1Move a b a b (-1) r.length (la.length - 1) e) s = .done ((), s') ∧
      Trio s0 s' f a b l x (r ++ e :: lb) := by
  subst hx
  have hput := exec_bputky (h.turned.has hb) e ZNULL ZNULL (by rw [h.right.nkeys]; omega)
  have hr0 : (s.disk.block b).Bare ([] ++ lb) := h.right
  have ht1 : Turned s { s with disk := s.disk.put b ((s.disk.block b).putky e ZNULL ZNULL) } [a,b] :=
    (Turned.refl s [a,b]).put (by simp) (Block.putky_sameInfo _ _ _ _)
  have hb1 : ((s.disk.put b ((s.disk.block b).putky e ZNULL ZNULL)).block b).Bare (e :: lb) := by
    rw [Disk.block_put, Function.update_self]
    exact hr0.putky (fun y hy => absurd hy List.not_mem_nil) fun y hy => (List.pairwise_cons.1 hsort.right).1 y hy
  have ha1 : ((s.disk.put b ((s.disk.block b).putky e ZNULL ZNULL)).block a).Bare ((l ++ [x]) ++ r) := by
    rw [Disk.block_put, Function.update_of_ne hab, ← List.append_cons]
    exact h.left
  obtain ⟨s2,hrun,ht2,ha2,hb2⟩ := exec_moveKeys_right (C := [a,b]) (ht1.has (h.turned.has ha))
    (ht1.has (h.turned.has hb)) hab (by simp) (by simp) ha1 hb1 (by simpa using hsort)
    (by simp only [List.length_cons]; omega)
  have ht12 := ht1.trans ht2
  have hf2 : (s2.disk.block f.id).Shows (f.le ++ e :: f.re) (pairLinks f a b) := by
    rw [ht12.other f.id (by simp [hqa, hqb])]
    exact h.parent
  have hctx := ht12.ctx
  obtain ⟨s3,hlast,ht3,ha3,hf3,ho3⟩ := exec_last (C := [f.id,a,b]) (l := l) (r := []) (ht12.has (h.turned.has hq))
    (ht12.has (h.turned.has ha)) hqa (by simp) (by simp) (by rw [hctx]; exact hlf) (by rw [hctx]; exact hpos) hsize hf2 ha2
  have hlen : (((l ++ [x]).length : Nat) : Int) - 1 = l.length := by
    simp only [List.length_append, List.length_cons, List.length_nil]
    omega
  refine ⟨s3,?_,(h.turned.trans (ht12.mono (by simp))).trans ht3,by simpa using ha3,?_,hf3⟩
  · rw [balbk1Move]
    rw [hlen, ← List.append_cons] at hrun
    exact (exec_then hput).trans ((exec_then hrun).trans hlast)
  · rw [ho3 b hab.symm hqb.symm]
    exact hb2

theorem exec_balbk1 (hcap : 8 ≤ ZMXKEY) (hla : la.length ≤ ZMXKEY) (hlb : lb.length ≤ ZMXKEY)
    (hd : ZMXKEY / 2 < ((la.length : Int) - lb.length).natAbs) :
    ∃ s' la' x lb', exec (balbk1 a b (la.length - lb.length) e) s = .done ((), s') ∧ Trio s0 s' f a b la' x lb' ∧
      la' ++ x :: lb' = la ++ e :: lb ∧ la' ≠ [] ∧ lb' ≠ [] ∧ la'.length ≤ ZMXKEY ∧ lb'.length ≤ ZMXKEY := by
  have hhalf : (((la.length : Int) - lb.length).tdiv 2).natAbs = ((la.length : Int) - lb.length).natAbs / 2 :=
    Int.natAbs_tdiv _ _
  rcases lt_or_ge (la.length : Int) lb.length with hlt | hge
  · obtain ⟨l,x,r,hx,hl⟩ : ∃ l x r, lb = l ++ x :: r ∧ l.length = (((la.length : Int) - lb.length).tdiv 2).natAbs :=
      exists_mid (by omega)
    obtain ⟨s',hrun,ht⟩ := exec_balbk1_left h hq ha hb hab hqa hqb hlf hpos hsize hsort hx (by omega)
    have hlen : lb.length = l.length + (r.length + 1) := by rw [hx, List.length_append, List.length_cons]
    refine ⟨s',_,x,r,?_,ht,by rw [hx]; simp,by simp,?_,?_,by omega⟩
    · rw [balbk1, if_pos (by omega), ← hl]
      exact hrun
    · rintro rfl
      simp only [List.length_nil] at hlen
      omega
    · simp only [List.length_append, List.length_cons]
      omega
  · obtain ⟨l,x,r,hx,hl⟩ : ∃ l x r, la = l ++ x :: r ∧
        l.length = la.length - 1 - (((la.length : Int) - lb.length).tdiv 2).natAbs := exists_mid (by omega)
    have hlen : la.length = l.length + (r.length + 1) := by rw [hx, List.length_append, List.length_cons]
    obtain ⟨s',hrun,ht⟩ := exec_balbk1_right h hq ha hb hab hqa hqb hlf hpos hsize hsort hx (by omega)
    have hn := exec_bgtinf (h.turned.has ha) .ZNKEYS
    refine ⟨s',l,x,_,?_,ht,by rw [hx]; simp,?_,by simp,by omega,?_⟩
    · rw [balbk1, if_neg (by omega)]
      refine (exec_then hn).trans ?_
      rw [Block.getInf_ZNKEYS, h.left.nkeys, show (((la.length : Int) - lb.length).tdiv 2).natAbs = r.length by omega]
      exact hrun
    · rintro rfl
      simp only [List.length_nil] at hlen hl
      omega
    · simp only [List.length_append, List.length_cons]
      omega

end Balance

theorem exec_bjoin (h : Index s (pair p f a la e b lb) fs os) (ha : (s.disk.block a).Bare la)
    (hb : (s.disk.block b).Bare lb) (hlf : s.ctx.lf.lfblk = f.id) (hpos : s.ctx.lf.lfpos = f.le.length)
    (hroom : la.length < ZMXKEY) (hsort : Sorted KeyEnt.key (la ++ e :: lb)) :
    ∃ s', exec (bjoin a b e) s = .done ((), s') ∧ Index s' (one p f a (la ++ e :: lb)) (b :: fs) os ∧
      s'.ctx.lf = s.ctx.lf ∧ s'.ctx.stk = s.ctx.stk ∧ Undisturbed s s' os := by
  obtain ⟨hab,haq,hbq,hroot,hmem⟩ := h.two_nodup
  have hba : b ≠ a := Ne.symm hab
  have hq := h.pair_has (c := f.id) (by simp)
  have hha := h.pair_has (c := a) (by simp)
  have hhb := h.pair_has (c := b) (by simp)
  obtain ⟨-,hf,-⟩ := holds_pair.1 h.holds
  have ha0 : (s.disk.block a).Bare (la ++ []) := by simpa using ha
  -- the parent loses the entry, and the link behind it
  have hrem := exec_bremky hq (f.le.length : Int)
  have hf' : (s.disk.block f.id).Shows (f.le ++ e :: f.re)
      ((f.lk.map BTree.link ++ [a]) ++ b :: f.rk.map BTree.link) := by simpa [pairLinks] using hf
  have hQ := Block.remky_shows hf' (by simp [f.hl]) (by simp [f.hr])
  generalize hq' : (s.disk.block f.id).remky f.le.length = Q at hrem hQ
  have t1 := (Turned.refl s [f.id,a,b]).put (c := f.id) (by simp) (hq' ▸ Block.remky_sameInfo _ _)
  -- the left leaf takes it
  have hput := exec_bputky (t1.has hha) e ZNULL ZNULL (by
    rw [Disk.block_put, Function.update_of_ne haq, ha.nkeys]
    omega)
  have hA1 : ((s.disk.block a).putky e ZNULL ZNULL).Bare (la ++ [e]) :=
    ha0.putky (fun y hy => hsort.lt hy List.mem_cons_self) fun y hy => absurd hy List.not_mem_nil
  have i1 := Block.putky_sameInfo (s.disk.block a) e ZNULL ZNULL
  rw [Disk.block_put, Function.update_of_ne haq] at hput
  generalize (s.disk.block a).putky e ZNULL ZNULL = A1 at hput hA1 i1
  have t2 := t1.put (c := a) (by simp) (B := A1) (by rw [Disk.block_put, Function.update_of_ne haq]; exact i1)
  -- and the entries of the right one
  have hna := exec_bgtinf (t2.has hha) .ZNKEYS
  have hnb := exec_bgtinf (t2.has hhb) .ZNKEYS
  have hcp := exec_bcpybk (t2.has hha) (t2.has hhb) (la ++ [e]).length 0 lb.length
  have hA2 := hA1.cpybk hb (by simp)
  have i2 := Block.cpybk_sameInfo A1 (s.disk.block b) (la ++ [e]).length 0 lb.length
  simp only [Disk.block_put, Function.update_self, Function.update_of_ne hba, Function.update_of_ne hbq,
    Block.getInf_ZNKEYS, hA1.nkeys, hb.nkeys, Int.toNat_natCast] at hna hnb hcp
  generalize A1.cpybk (s.disk.block b) (la ++ [e]).length 0 lb.length = A2 at hcp hA2 i2
  have t3 := t2.put (c := a) (by simp) (B := A2) (by rw [Disk.block_put, Function.update_self]; exact i2.1)
  have hst := exec_bstinf (t3.has hha) .ZNKEYS ((la ++ [e]).length + lb.length)
  simp only [Disk.block_put, Function.update_self, Block.setInf_ZNKEYS] at hst
  have t4 := t3.put (c := a) (by simp) (B := { A2 with nkeys := ((la ++ [e]).length : Int) + lb.length }) (by
    rw [Disk.block_put, Function.update_self]
    exact ⟨rfl,rfl,rfl,rfl,rfl,rfl,rfl⟩)
  have hbmem := hmem b (by simp)
  have hfr := exec_bmkfre (t4.has hhb) (by rw [(t4.info b).btype]; exact h.not_dup hbmem)
  have hbs1 := exec_bsetbs (t1.has hha) true
  refine ⟨_,?_,h.merge t4 ?_ ?_,rfl,rfl,(h.undisturbed t4 hmem).without (h.not_mem_os hbmem) hroot⟩
  · unfold bjoin
    have hrem' : exec (bremky s.ctx.lf.lfblk s.ctx.lf.lfpos) s =
        .done ((), { s with disk := s.disk.put f.id Q }) := by
      rw [hlf, hpos]
      exact hrem
    refine (exec_then (exec_get _)).trans ?_
    dsimp only
    refine (exec_then hrem').trans ((exec_then hbs1).trans ((exec_then hput).trans ((exec_then hna).trans ?_)))
    refine (exec_then hnb).trans ((exec_then hcp).trans ((exec_then hst).trans ((exec_then hfr).trans ?_)))
    refine exec_bsetbs (s := ⟨_,_⟩) ?_ false
    exact t4.has hha
  · rw [Disk.block_put, Function.update_self, List.append_cons la e lb]
    exact hA2
  · simp only [Disk.block_put, Function.update_of_ne (Ne.symm haq), Function.update_self]
    simpa [oneLinks] using hQ

end Btlib
