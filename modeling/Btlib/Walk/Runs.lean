import Btlib.Walk.Finds

namespace Btlib

open Multiway Links

variable [Build] {n m : Nat} {s s' s1 : St} {fs D os : List Int} {live : Finset (Int × Nat)}
  {ent : Int × Nat → DKey} {vals : KeyEnt → List Int} {t : KeyTree m} {dir : Int} {l bs as : List KeyEnt}
  {c : Cursor Item} {move : BT (Option Item)} {E : Op → Disk → Prop}

theorem Shelf.along (hb : Sized) (h : Shelf s t fs D os live ent vals) (hdir : dir = ZNEXT ∨ dir = ZPREV)
    (hs : Stands s t live ent vals c) : Along s t live ent vals dir c := by
  rcases hs with ⟨f,p,hg⟩ | ⟨n,f,d,p,e,r,after,ps,lvs,v,rvs,hv⟩
  · exact h.walk_gap hg
  · exact h.walk_value hb hdir hv

-- What `bfndky` answers, and the place it comes to.
def found (k : Key) (l : List Item) : Int × Option Int :=
  match (Cursor.seek Prod.fst k l).cur with
  | none => (QNOKEY, none)
  | some x => (0, some x.2)

-- The search within a call that keeps the lock, and the code it comes back with.
structure Searched (s : St) (key : Key) (os : List Int) (r : (Int × Int) × St) : Prop where
  run : ∃ a s', exec (bfndkySearch key) s.clear.entered = .done (a, s') ∧ Keeps s.clear.entered s' os ∧
    (s.ctx.shared = false ∨ 0 < s.ctx.lckcnt → r.2.disk = s'.disk ∧ r.2.ctx.super = s'.ctx.super)
  code : r.1.1 = r.2.ctx.err.qerror

theorem ends_call_find (hb : Sized) (hcap : 3 ≤ ZMXKEY) (h : Shelf s t fs D os live ent vals) (ho : Open os s)
    (hf : 2 * t.inorder.length + 3 ≤ FUEL) (key : Key) :
    (exec (bfndky key) s).Ends (Refused s.ctx.super.scroot) fun r =>
      (r.1.1, if r.1.1 = 0 then some r.1.2 else none) = found (keycpy key) (items vals t.inorder) ∧
        Here t.inorder D os live ent vals s.ctx.super.scroot (some (Cursor.seek Prod.fst (keycpy key) (items vals t.inorder)))
          r.2 ∧ r.2.ctx.lf.lfkey = keycpy key ∧ r.2.ctx.shared = s.ctx.shared ∧
            (s.ctx.shared = false ∨ 0 < s.ctx.lckcnt → Remains s r.2) ∧ Searched s key (D ++ os) r := by
  have ho0 : Open os s.clear := ho.withCtx rfl rfl rfl rfl
  have h0 : Shelf s.clear.entered t fs D os live ent vals := h.same rfl rfl rfl
  rw [bfndky, exec_api h.isopen, exec_bind]
  have hbody := (h0.ends_search hb hcap hf key).self
  refine Prog.Outcome.Ends.bind (ends_locked_open
    (P := fun r => Sought t.inorder D os live ent vals (keycpy key) r ∧ r.2.ctx.err.qerror = 0 ∧
      exec (bfndkySearch key) s.clear.entered = .done r ∧ Keeps s.clear.entered r.2 (D ++ os)) ho0
    (hbody.mono (fun _ _ h => h) fun r hr => ?_)) ?_
  · obtain ⟨hex,hfound,hkeeps,herr⟩ := hr
    obtain ⟨m',t',fs',h',-⟩ := hfound.here
    refine ⟨h'.stays hkeeps ((allotting_bfndkySearch key).exec _ hex) ho0.super,hfound,?_,hex,hkeeps⟩
    rw [herr]
    rfl
  · rintro ⟨⟨code,v⟩,s2⟩ ⟨s1,hst,⟨hfound,herr,hex,hkeeps⟩,hout,hopen,hcnt⟩
    have hopen1 : Open os s1 := ho0.entered.stays hst ho0.count
    have herr2 : s2.ctx.err.qerror = 0 := by
      rw [hout.ctx]
      exact herr
    have hlf : s2.ctx.lf = s1.ctx.lf ∧ s2.ctx.stk = s1.ctx.stk ∧ s2.ctx.shared = s1.ctx.shared ∧
        s2.ctx.super.scroot = s1.ctx.super.scroot := by
      rw [hout.ctx]
      exact ⟨rfl,rfl,rfl,rfl⟩
    obtain ⟨hlf,hstk,hshared,hroot⟩ := hlf
    have hkey : s1.ctx.lf.lfkey = keycpy key := hfound.lfkey
    have hkept : s.ctx.shared = false ∨ 0 < s.ctx.lckcnt → Remains s s2 := fun hk => by
      have hst2 := hst.out hout hcnt hk
      exact ⟨hst2.isopen,hst2.shared,hst2.lckcnt,hst2.root,⟨hst2.allots.free,hst2.allots.smod,hst2.allots.same⟩,
        hst2.super,hst2.rootHas,hst2.superHas⟩
    have hrun : ∃ a s', exec (bfndkySearch key) s.clear.entered = .done (a, s') ∧ Keeps s.clear.entered s' (D ++ os) ∧
        (s.ctx.shared = false ∨ 0 < s.ctx.lckcnt → s2.disk = s'.disk ∧ s2.ctx.super = s'.ctx.super) := by
      refine ⟨_,s1,hex,hkeeps,fun hk => hout.kept ?_⟩
      rw [hst.shared, hst.lckcnt]
      cases hsh : s.ctx.shared with
      | false => exact Or.inl hsh
      | true =>
          have hlck := hk.resolve_left (by simp [hsh])
          rw [entered_shared (s := s.clear) hsh]
          exact Or.inr (by change 1 < s.ctx.lckcnt + 1; omega)
    have hend : ∀ err : Err, Here t.inorder D os live ent vals s.ctx.super.scroot
        (some (Cursor.seek Prod.fst (keycpy key) (items vals t.inorder))) { s2 with ctx.err := err } := fun err => by
      obtain ⟨m',t',fs',h',hin,hs⟩ := hfound.here
      refine ⟨m',t',fs',(h'.out hout hopen1).same rfl rfl rfl,hin,hopen.withCtx rfl rfl rfl rfl,
        ⟨hs.withCtx hlf hstk,fun _ => ⟨?_,fun hc => ⟨fun x hx => ?_,fun x hx => ?_⟩⟩⟩,hroot.trans hst.root⟩
      all_goals simp only [hlf, hkey, keycpy_keycpy]
      · exact (hfound.apart hc).1 x hx
      · exact (hfound.apart hc).2 x hx
    have hcode := hfound.code
    rw [found]
    cases hcur : (Cursor.seek Prod.fst (keycpy key) (items vals t.inorder)).cur with
    | none =>
        rw [hcur] at hcode
        obtain rfl : code = QNOKEY := hcode
        have hne : ¬ QNOKEY = 0 := by decide
        simp only [ne_eq, hne, not_false_eq_true, if_true, exec_bind, exec_btgerr, exec_pure,
          Prog.Outcome.bind_done, exec_bterr _ "BFNDKY" QNOKEY (.key (keycpy key)) (by decide) (by decide), herr2, if_false,
          Prog.Outcome.ends_done]
        refine ⟨trivial,hend _,?_,hshared.trans hst.shared,fun hk => (hkept hk).withCtx rfl rfl rfl rfl,hrun,rfl⟩
        rw [hlf, hkey]
    | some x =>
        rw [hcur] at hcode
        obtain ⟨rfl,rfl⟩ : code = 0 ∧ v = x.2 := Prod.mk.inj hcode
        simp only [ne_eq, not_true_eq_false, if_false, exec_bind, exec_btgerr, exec_pure,
          Prog.Outcome.bind_done, herr2, if_true, Prog.Outcome.ends_done]
        refine ⟨trivial,hend s2.ctx.err,?_,hshared.trans hst.shared,hkept,hrun,herr2.symm⟩
        rw [hlf, hkey]

-- `refind` comes back to where the handle was: whatever it has split, the entries are the same.
theorem ends_refind (hb : Sized) (hcap : 3 ≤ ZMXKEY) (h : Shelf s t fs D os live ent vals) (ho : Open os s)
    (hf : 2 * t.inorder.length + 3 ≤ FUEL) (hshared : s.ctx.shared = true) (hlck : 0 < s.ctx.lckcnt)
    (hblk : s.ctx.lf.lfblk ≠ ZNULL) (happend : t.inorder = bs ++ as) (hkey : keycpy s.ctx.lf.lfkey = s.ctx.lf.lfkey)
    (hcut : CutAt dir s.ctx.lf.lfkey bs as) :
    (exec refind s).Ends (Refused s.ctx.super.scroot) fun r => ∃ (m' : Nat) (t' : KeyTree m') (fs' : List Int),
      Shelf r.2 t' fs' D os live ent vals ∧ t'.inorder = t.inorder ∧ Open os r.2 ∧ Remains s r.2 ∧
        Departs r.2 t' dir bs as ∧ r.2.ctx.err.qerror = 0 := by
  simp only [refind, exec_bind, exec_get, Prog.Outcome.bind_done, exec_ite, hshared, ne_eq, hblk, not_false_eq_true,
    true_and, if_true]
  refine (ends_call_find hb hcap h ho hf s.ctx.lf.lfkey).bind fun r hr => ?_
  obtain ⟨-,⟨m',t',fs',h',hin,hopen,⟨hs,htr⟩,hroot⟩,hlf,hsh,hst,-⟩ := hr
  have hst := hst (Or.inr hlck)
  obtain ⟨bs',as',hd,hcut'⟩ := h'.departs dir hs (htr (hsh.trans hshared))
  rw [hlf, hkey] at hcut'
  obtain ⟨rfl,rfl⟩ := hcut.unique hcut' (by rw [← happend, ← hd.append, hin])
  rw [exec_bterr0, Prog.Outcome.ends_done]
  exact ⟨m',t',fs',h'.same rfl rfl rfl,hin,hopen.withCtx rfl rfl rfl rfl,hst.withCtx rfl rfl rfl rfl,
    hd.withCtx rfl rfl,rfl⟩

omit [Build] in
theorem Walked.same (h : Walked s s') : s'.ctx.isopen = s.ctx.isopen ∧ s'.ctx.shared = s.ctx.shared ∧
    s'.ctx.lckcnt = s.ctx.lckcnt ∧ s'.ctx.super = s.ctx.super := by
  rw [h.ctx]
  exact ⟨rfl,rfl,rfl,rfl⟩

omit [Build] in
theorem Walked.stays (h : Walked s s') : Remains s s' := by
  obtain ⟨hopen,hshared,hcnt,hsuper⟩ := h.same
  obtain ⟨ctx,disk⟩ := s'
  obtain rfl : disk = s.disk := h.disk
  exact (Remains.refl s).withCtx hopen hshared hcnt hsuper

-- What a walk leaves, which has come to `o`.
structure Walks (l : List KeyEnt) (D os : List Int) (live : Finset (Int × Nat)) (ent : Int × Nat → DKey)
    (vals : KeyEnt → List Int) (o : Option (Item × Cursor Item)) (s : St) (r : Option Item × St) : Prop where
  stays : Remains s r.2
  value : r.1 = o.map Prod.fst
  here : ∃ (m : Nat) (t : KeyTree m) (fs : List Int), Shelf r.2 t fs D os live ent vals ∧ t.inorder = l ∧
    Place r.2 t live ent vals (o.map Prod.snd)
  err : r.2.ctx.err.qerror = if o.isSome then 0 else QNOKEY

theorem Walks.of {o : Option (Item × Cursor Item)} {r : Option Item × St} (hst : Remains s s1)
    (h : Walks l D os live ent vals o s1 r) : Walks l D os live ent vals o s r :=
  ⟨hst.trans h.stays,h.value,h.here,h.err⟩

theorem ends_walk (hb : Sized) (hcap : 3 ≤ ZMXKEY) (hdir : dir = ZNEXT ∨ dir = ZPREV)
    (h : Shelf s t fs D os live ent vals) (ho : Open os s) (hf : 2 * t.inorder.length + 3 ≤ FUEL)
    (hlck : s.ctx.shared = true → 0 < s.ctx.lckcnt) (herr : s.ctx.err.qerror = 0)
    (hp : Place s t live ent vals (some c))
    (hmove : ∀ {m' : Nat} (t' : KeyTree m') (fs' : List Int) (bs as : List KeyEnt) (s1 : St),
      Shelf s1 t' fs' D os live ent vals → t'.inorder = t.inorder → s1.ctx.err.qerror = 0 →
      Departs s1 t' dir bs as → (exec move s1).Ends (Refused s1.ctx.super.scroot)
        (Walks t.inorder D os live ent vals (follow dir ⟨items vals bs, none, items vals as⟩) s1)) :
    (exec (walk dir move) s).Ends (Refused s.ctx.super.scroot)
      (Walks t.inorder D os live ent vals (follow dir c) s) := by
  obtain ⟨hs,htr⟩ := hp
  cases h.along hb hdir hs with
  | dup x c' s1 hc hex hkey hw hs' =>
      have h1 := h.walked hw
      rw [exec_walk_dup hex, Prog.Outcome.ends_done, hc, hkey]
      refine ⟨hw.stays,rfl,⟨m,t,fs,h1,rfl,hs',fun _ => h1.tracks hs' ?_⟩,?_⟩
      · rw [follow_cur _ hc]
        exact Option.some_ne_none _
      · change s1.ctx.err.qerror = 0
        rw [hw.ctx]
        exact herr
  | move bs as v s1 hc hex hw hkey hblk hd ha =>
      have h1 := h.walked hw
      have hst := hw.stays
      have herr1 : s1.ctx.err.qerror = 0 := by
        rw [hw.ctx]
        exact herr
      rw [exec_walk_move hex, hc, exec_bind, ← hst.root]
      cases hsh : s.ctx.shared with
      | false =>
          have hre : exec refind s1 = .done ((), s1) := by
            simp [refind, hst.shared.trans hsh]
          rw [hre, Prog.Outcome.bind_done]
          exact (hmove t fs bs as s1 h1 rfl herr1 hd).mono (fun _ _ h => h) fun r hr => hr.of hst
      | true =>
          have ho1 : Open os s1 := by
            obtain ⟨hopen,hshared,hcnt,hsuper⟩ := hw.same
            obtain ⟨ctx,disk⟩ := s1
            obtain rfl : disk = s.disk := hw.disk
            exact ho.withCtx hopen hshared hcnt hsuper
          have hcut := ha (htr hsh)
          have htr1 := (htr hsh).1
          rw [← hkey] at hcut htr1
          refine (ends_refind hb hcap h1 ho1 hf (hst.shared.trans hsh) (by rw [hst.lckcnt]; exact hlck hsh) hblk
            hd.append htr1 hcut).bind fun r hr => ?_
          obtain ⟨m2,t2,fs2,h2,hin,-,hst2,hd2,herr2⟩ := hr
          rw [← hst2.root]
          exact (hmove t2 fs2 bs as r.2 h2 hin herr2 hd2).mono (fun _ _ h => h) fun r' hr' => hr'.of (hst.trans hst2)

theorem exec_walk_lost (h : Lost s) : exec (walk dir move) s = exec move s := by
  rw [exec_walk_move (Legible.exec_btduppos_gap h.draddr h.exct), exec_bind]
  simp [refind, h.blk]

theorem Goes.reached (err : Err) {o : Option (Item × Cursor Item)} {a : Option Item × St} {x : BT Unit}
    (h : Goes s t live ent vals o a) (hshelf : Shelf s t fs D os live ent vals) (h0 : s.ctx.err.qerror = 0)
    (hcur : ∀ y ∈ o, y.2.cur = some y.1)
    (hx : a.2.ctx.lf.lfblk = ZNULL → a.2.ctx.err.qerror = 0 → ∃ lf, exec x a.2 =
      .done ((), { a.2 with ctx.lf := lf, ctx.err := err }) ∧ (lf = a.2.ctx.lf ∨ lf = ⟨[],ZNULL,ZNULL,false,ZNULL⟩))
    (herr : err.qerror = QNOKEY) :
    (exec (do
      let lf := (← get).lf
      if lf.lfblk = ZNULL then x
      pure a.1) a.2).Ends E (Walks t.inorder D os live ent vals o s) := by
  obtain ⟨hw,ho⟩ := h
  have h1 := hshelf.walked hw
  have herr0 : a.2.ctx.err.qerror = 0 := by
    rw [hw.ctx]
    exact h0
  cases o with
  | none =>
      obtain ⟨ha,hlost⟩ := ho
      obtain ⟨lf,hex,hlf⟩ := hx hlost.blk herr0
      simp only [exec_bind, exec_get, Prog.Outcome.bind_done, exec_ite, hlost.blk, if_true, hex, exec_pure,
        Prog.Outcome.ends_done]
      refine ⟨hw.stays.withCtx rfl rfl rfl rfl,ha,⟨m,t,fs,h1.same rfl rfl rfl,rfl,?_⟩,herr⟩
      rcases hlf with rfl | rfl
      · exact ⟨hlost.blk,hlost.exct,hlost.draddr⟩
      · exact ⟨rfl,rfl,rfl⟩
  | some y =>
      obtain ⟨ha,hblk,hs'⟩ := ho
      simp only [exec_bind, exec_get, Prog.Outcome.bind_done, exec_ite, if_neg hblk, exec_pure,
        Prog.Outcome.ends_done]
      refine ⟨hw.stays,ha,⟨m,t,fs,h1,rfl,hs',fun _ => h1.tracks hs' ?_⟩,herr0⟩
      rw [hcur y rfl]
      exact Option.some_ne_none _

end Btlib
