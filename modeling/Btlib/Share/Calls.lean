import Btlib.Cache.Records
import Btlib.Cache.SlotFactsCalls
import Btlib.Index.Refine
import Btlib.Share.LikeOwn

namespace Btlib

open Prog

variable {α β : Type} {p : Prop} {l n : Int} {x : BT α}

section Search

-- A program that the handles may leave at a duplicate.
structure Parting (n : Int) (x : BT α) : Prop where
  alike : Alike (LikeOwn True n) (fun _ => LikeOwn False n) x x
  inside : Inside x

theorem IgnoresLock.parting (hx : IgnoresLock True n x) : Parting n x :=
  ⟨(hx.alike n le_rfl).mono (fun _ _ h => h) fun _ _ _ h => h.weaken fun hf => hf.elim,hx.inside⟩

namespace Parting

theorem bind {f : α → BT β} (hx : IgnoresLock True n x) (hf : ∀ a, Parting n (f a)) : Parting n (x >>= f) :=
  ⟨Alike.bind (hx.alike n le_rfl) fun a => (hf a).alike,hx.inside.bind fun a => (hf a).inside⟩

theorem ite {r : Prop} [Decidable r] {y : BT α} (hx : Parting n x) (hy : Parting n y) : Parting n (if r then x else y) :=
  ⟨Alike.ite (fun _ => hx.alike) fun _ => hy.alike,hx.inside.ite hy.inside⟩

@[simp] theorem pure (a : α) : Parting n (Pure.pure a : BT α) := (IgnoresLock.pure a).parting

theorem get {f : Ctx → BT β} (hf : ∀ c, Parting n (f c)) (hq : ∀ c n, f (c.withLock n) = f c) : Parting n (get >>= f) := by
  refine ⟨alike_get ?_,.get fun c => (hf c).inside⟩
  rintro _ c ⟨-,-,rfl⟩
  rw [hq]
  exact (hf c).alike

theorem andReturn (hx : Parting n x) (f : α → β) : Parting n (do return f (← x)) :=
  ⟨Alike.bind hx.alike fun _ => alike_pure fun _ _ h => h,hx.inside.bind fun _ => .pure _⟩

end Parting

@[simp] theorem inside_btdupposFound (newaddr : Int) (dkey : DKey) : Inside (btdupposFound newaddr dkey) :=
  .bind (.modify fun _ => rfl) fun _ => .pure _

@[simp] theorem parting_btdupposFound (newaddr : Int) (dkey : DKey) : Parting n (btdupposFound newaddr dkey) := by
  refine ⟨Alike.bind (Q := fun _ => LikeOwn False n) (alike_modify ?_) fun _ => alike_pure fun _ _ h => h,
    inside_btdupposFound _ _⟩
  rintro _ c ⟨hs,-,rfl⟩
  exact ⟨hs,fun hf => hf.elim,rfl⟩

variable [Build]

theorem inside_btdupposLoop (direction val : Int) (m : Nat) (dkey : DKey) : Inside (btdupposLoop direction val m dkey) := by
  induction m generalizing dkey with
  | zero => exact fun _ _ => trivial
  | succ m ih =>
      unfold btdupposLoop
      with_reducible repeat' first
        | exact ih _
        | exact inside_btdupposFound _ _
        | exact .pure _
        | exact (ignoresLock_getdkey (p := True) (l := 0) _).inside
        | exact (ignoresLock_btgerr (p := True) (l := 0)).inside
        | exact .setLf _
        | refine .bind ?_ fun _ => ?_
        | refine .ite ?_ ?_
        | split

theorem inside_btduppos (direction val : Int) : Inside (btduppos direction val) := by
  unfold btduppos
  with_reducible repeat' first
    | exact inside_btdupposLoop _ _ _ _
    | exact inside_btdupposFound _ _
    | exact .pure _
    | exact (ignoresLock_getdkey (p := True) (l := 0) _).inside
    | exact (ignoresLock_getkeyent (p := True) (l := 0) _ _).inside
    | exact (ignoresLock_btgerr (p := True) (l := 0)).inside
    | exact (ignoresLock_bterr0 (p := True) (l := 0)).inside
    | refine .get fun _ => ?_
    | refine .bind ?_ fun _ => ?_
    | refine .ite ?_ ?_
    | split

@[simp] theorem parting_btduppos (direction val : Int) : Parting n (btduppos direction val) := by
  refine ⟨alike_get ?_,inside_btduppos direction val⟩
  rintro _ c ⟨-,hd,rfl⟩
  have hdr : c.lf.draddr = ZNULL := hd trivial
  have hdr' : (c.withLock n).lf.draddr = ZNULL := hdr
  simp only [hdr, hdr', true_and, if_true]
  refine Parting.alike ?_
  with_reducible repeat' first | refine .bind ?_ fun _ => ?_ | refine .ite ?_ ?_ | split
  all_goals first | exact IgnoresLock.parting (.bind ignoresLock_btgerr fun _ => .pure _) | simp

@[simp] theorem parting_bfndkyLoop (m : Nat) (cblk : Int) (o : Srh) : Parting n (bfndkyLoop m cblk o) := by
  induction m generalizing cblk o with
  | zero => exact IgnoresLock.hang.parting
  | succ m ih =>
      unfold bfndkyLoop
      with_reducible repeat' first
        | exact .andReturn (parting_btduppos _ _) _
        | refine .get (fun _ => ?_) fun _ _ => rfl
        | refine .bind ?_ fun _ => ?_
        | refine .ite ?_ ?_
        | split
      all_goals simp [ih]

end Search

section Lock

variable [Build]

theorem enter_own {c : Ctx} (hs : c.shared = false) (fn : String) : enter fn c = .ret (true, c) := by
  change (if c.shared = true then _ else _ : BT Bool) c = _
  rw [hs]
  rfl

theorem leave_own {c : Ctx} (hs : c.shared = false) : leave c = .ret ((), c) := by
  change (if c.shared = true then _ else _ : BT Unit) c = _
  rw [hs]
  rfl

theorem alike_enter (hn : 0 < n) (fn : String) :
    Alike (LikeOwn p n) (fun a c c' => a = true ∧ LikeOwn p (n + 1) c c') (enter fn) (enter fn) := by
  rintro _ c ⟨hs,hd,rfl⟩
  have hshared : enter fn (c.withLock n) = .ret (true, c.withLock (n + 1)) := by
    have hblock : block (c.withLock n) = .ret (true, c.withLock (n + 1)) := by
      change (if 0 < n then _ else _ : BT Bool) (c.withLock n) = _
      rw [if_pos hn]
      rfl
    have hopen : enter fn (c.withLock n) = (do
        let ok ← block
        if ¬ ok then bterr fn QBUSY .none
        pure ok : BT Bool) (c.withLock n) := rfl
    rw [hopen]
    change Prog.bind (block (c.withLock n)) _ = _
    rw [hblock]
    rfl
  rw [hshared, enter_own hs]
  exact .ret ⟨rfl,rfl,hs,hd,rfl⟩

theorem alike_leave (hn : 0 < n) : Alike (LikeOwn p (n + 1)) (fun _ => LikeOwn p n) leave leave := by
  rintro _ c ⟨hs,hd,rfl⟩
  have hshared : leave (c.withLock (n + 1)) = .ret ((), c.withLock n) := by
    change (if 1 < n + 1 then _ else _ : BT Unit) (c.withLock (n + 1)) = _
    rw [if_pos (by omega)]
    exact congrArg (fun m => Prog.ret ((), c.withLock m)) (Int.add_sub_cancel n 1)
  rw [hshared, leave_own hs]
  exact .ret ⟨rfl,hs,hd,rfl⟩

theorem Inside.locked (hx : Inside x) (fn : String) (busy : α) : Inside (locked fn busy x) := by
  refine .bind (.bind (fun c hc => ?_) fun ok => .ite hx (.pure _)) fun _ => .bind (fun c hc => ?_) fun _ => .pure _
  · rw [enter_own hc]
    exact ⟨hc,rfl⟩
  · rw [leave_own hc]
    exact ⟨hc,rfl⟩

theorem IgnoresLock.locked (hl : 0 < l) (hx : IgnoresLock p l x) (fn : String) (busy : α) : IgnoresLock p l (locked fn busy x) := by
  refine ⟨fun n hn => ?_,hx.inside.locked fn busy⟩
  refine .bind (Q := fun _ => LikeOwn p (n + 1)) (.bind (alike_enter (by omega) fn) fun ok => ?_) fun a =>
    .bind (alike_leave (by omega)) fun _ => alike_pure fun _ _ h => h
  rintro c c' ⟨rfl,h⟩
  exact hx.alike (n + 1) (by omega) c c' h

omit [Build] in
theorem IgnoresLock.api (hx : IgnoresLock p l x) (fn : String) (bad : Int → α) : IgnoresLock p l (api fn bad x) := by
  unfold Btlib.api bvalap
  with_reducible repeat' first
    | refine .get (fun _ => ?_) fun _ _ => rfl
    | refine .bind ?_ fun _ => ?_
    | refine .ite ?_ ?_
  all_goals first | exact hx | simp

theorem ignoresLock_bfndkySearch (key : Key) : IgnoresLock False l (bfndkySearch key) := by
  refine ⟨fun n _ => ?_,?_⟩
  · refine .bind (Q := fun _ => LikeOwn False n) (ignoresLock_bstkin.alike n le_rfl) fun _ =>
      .bind (Q := fun _ => LikeOwn True n) (alike_modify ?_) fun _ => ?_
    · rintro _ c ⟨hs,-,rfl⟩
      exact ⟨hs,fun _ => rfl,rfl⟩
    · refine .bind ((IgnoresLock.setLf (p := True) (f := fun lf => { lf with lfkey := keycpy key }) fun _ h => h).alike n le_rfl)
        fun _ => ?_
      refine Parting.alike (.get (fun _ => ?_) fun _ _ => rfl)
      exact parting_bfndkyLoop _ _ _
  · refine .bind (ignoresLock_bstkin (p := True) (l := 0)).inside fun _ => ?_
    refine .bind (ignoresLock_bclrlf (p := True) (l := 0)).inside fun _ => ?_
    refine .bind (.modify fun _ => rfl) fun _ => .get fun _ => (parting_bfndkyLoop (n := 0) _ _ _).inside

theorem ignoresLock_bfndky (hl : 0 < l) (key : Key) : IgnoresLock False l (bfndky key) := by
  refine .api (.bind ((ignoresLock_bfndkySearch key).locked hl _ _) fun _ => ?_) _ _
  with_reducible repeat' first | refine .bind ?_ fun _ => ?_ | refine .ite ?_ ?_
  all_goals simp

theorem ignoresLock_binskyPut (key : Key) (val : Int) (found : Bool) : IgnoresLock p l (binskyPut key val found) := by
  unfold binskyPut
  with_reducible repeat' first
    | refine .get (fun _ => ?_) fun _ _ => rfl
    | refine .bind ?_ fun _ => ?_
    | refine .ite ?_ ?_
  all_goals simp

theorem ignoresLock_bmodky (blk loc val : Int) : IgnoresLock p l (bmodky blk loc val) := by
  unfold bmodky
  with_reducible repeat' first
    | refine .bind ?_ fun _ => ?_
    | refine .ite ?_ ?_
    | split
  all_goals simp

@[simp] theorem ignoresLock_brdsup : IgnoresLock p l brdsup := by
  unfold brdsup
  with_reducible repeat' first
    | refine .bind ?_ fun _ => ?_
    | refine .ite ?_ ?_
    | split
  all_goals simp

@[simp] theorem ignoresLock_bwrsup : IgnoresLock p l bwrsup := by
  unfold bwrsup
  with_reducible repeat' first
    | refine .get (fun _ => ?_) fun _ _ => rfl
    | refine .bind ?_ fun _ => ?_
    | refine .ite ?_ ?_
    | split
  all_goals simp

@[simp] theorem ignoresLock_btsync : IgnoresLock p l btsync := by
  unfold btsync
  with_reducible repeat' first
    | refine .get (fun _ => ?_) fun _ _ => rfl
    | refine .bind ?_ fun _ => ?_
    | refine .ite ?_ ?_
    | split
  all_goals first | exact .ask trivial | simp

end Lock

section Shape

variable [Build] {c : Ctx}

def binskyBody (key : Key) (val : Int) : BT Unit := do
  let c ← get
  if c.super.smode ≠ 0 then bterr "BINSKY" QNOWRT .none
  else
    let dups_allowed ← bgtinf c.super.scroot .ZMISC
    let r ← bfndky (keycpy key)
    if r.1 = QNOKEY ∨ (r.1 = 0 ∧ dups_allowed ≠ 0) then binskyPut key val (r.1 = 0)
    else bterr "BINSKY" QDUP (.key key)

def bupdkyBody (key : Key) (val : Int) : BT Unit := do
  let status ← findKey (some key)
  if status = 0 then
    let lf := (← get).lf
    bmodky lf.lfblk lf.lfpos val

theorem ignoresLock_binskyBody (hl : 0 < l) (key : Key) (val : Int) : IgnoresLock False l (binskyBody key val) := by
  unfold binskyBody
  with_reducible repeat' first
    | exact ignoresLock_bfndky hl _
    | exact ignoresLock_binskyPut _ _ _
    | refine .get (fun _ => ?_) fun _ _ => rfl
    | refine .bind ?_ fun _ => ?_
    | refine .ite ?_ ?_
  all_goals simp

theorem ignoresLock_bupdkyBody (hl : 0 < l) (key : Key) (val : Int) : IgnoresLock False l (bupdkyBody key val) := by
  unfold bupdkyBody findKey
  with_reducible repeat' first
    | exact ignoresLock_bfndky hl _
    | exact ignoresLock_bmodky _ _ _
    | refine .get (fun _ => ?_) fun _ _ => rfl
    | refine .bind ?_ fun _ => ?_
    | refine .ite ?_ ?_
  all_goals simp

namespace Call

def name : Call → String
  | insert _ _ => "BINSKY"
  | find _ => "BFNDKY"
  | update _ _ => "BUPDKY"

-- What a call does while it has the lock.
def body : Call → BT (Int × Int)
  | insert key val => do
      binskyBody key val
      return (0, 0)
  | find key => bfndkySearch key
  | update key val => do
      bupdkyBody key val
      return (0, 0)

def busy : Call → Int × Int
  | find _ => (QNOKEY, 0)
  | _ => (0, 0)

-- What it does when it has given the lock back.
def tail : Call → Int × Int → BT (Int × Option Int)
  | find key, r => do
      if r.1 ≠ 0 then bterr "BFNDKY" QNOKEY (.key (keycpy key))
      let status ← btgerr
      return (status, if status = 0 then some r.2 else none)
  | _, _ => do return (← btgerr, none)

theorem ignoresLock_body (hl : 0 < l) (call : Call) : IgnoresLock False l call.body := by
  cases call with
  | insert key val => exact .bind (ignoresLock_binskyBody hl key val) fun _ => .pure _
  | find key => exact ignoresLock_bfndkySearch key
  | update key val => exact .bind (ignoresLock_bupdkyBody hl key val) fun _ => .pure _

end Call

theorem locked_map {g : α → β} (fn : String) (b : α) (body : BT α) :
    locked fn (g b) (do let a ← body; pure (g a)) = (do let a ← locked fn b body; pure (g a)) := by
  simp only [locked, within, LawfulMonad.bind_assoc, pure_bind]
  refine bind_congr fun ok => ?_
  cases ok <;> simp

omit [Build] in
theorem api_bind {f : α → BT β} {fn : String} {bad : Int → α} {body : BT α} (ho : c.isopen = true) :
    (api fn bad body >>= f) c = (body >>= f) c.clear := by
  change Prog.bind (api fn bad body c) _ = Prog.bind (body c.clear) _
  rw [api_of_open ho]
  rfl

-- A handle that may write tells it before the lock is asked for.
theorem errOf_modify (hm : c.super.smode = 0) (fn : String) (body : BT Unit) :
    errOf (do
      let c ← get
      if c.super.smode ≠ 0 then bterr fn QNOWRT .none else within fn () body
      leave) c = errOf (locked fn () body) c := by
  have hlock : (locked fn () body : BT Unit) = (do within fn () body; leave) := by
    simp only [locked, bind_pure_unit]
  have hmod : (do
      let c ← get
      if c.super.smode ≠ 0 then bterr fn QNOWRT .none else within fn () body
      leave : BT Unit) c = (do within fn () body; leave : BT Unit) c := by
    change (if c.super.smode ≠ 0 then (do bterr fn QNOWRT .none; leave) else (do within fn () body; leave) : BT Unit) c = _
    rw [if_neg (not_not.2 hm)]
  change Prog.bind _ _ = Prog.bind _ _
  rw [hlock, hmod]

theorem Call.answer_eq (call : Call) (ho : c.isopen = true) (hm : c.super.smode = 0) :
    call.answer c = (do let r ← locked call.name call.busy call.body; call.tail r) c.clear := by
  cases call with
  | insert key val =>
      have hmap := locked_map (g := fun _ : Unit => ((0, 0) : Int × Int)) "BINSKY" () (binskyBody key val)
      have hapi : binsky key val = api "BINSKY" id (errOf (locked "BINSKY" () (binskyBody key val))) := rfl
      simp only [Call.answer, Call.name, Call.busy, Call.body, Call.tail]
      rw [hmap, hapi, api_bind ho]
      simp only [errOf, LawfulMonad.bind_assoc, pure_bind]
  | find key =>
      simp only [Call.answer, Call.name, Call.busy, Call.body, Call.tail]
      rw [bfndky, api_bind ho]
      rw [LawfulMonad.bind_assoc]
      refine congrFun (bind_congr fun r => ?_) _
      split <;> simp only [LawfulMonad.bind_assoc, pure_bind]
  | update key val =>
      have hmap := locked_map (g := fun _ : Unit => ((0, 0) : Int × Int)) "BUPDKY" () (bupdkyBody key val)
      have hapi : bupdky (some key) val = api "BUPDKY" id (errOf (do
          let c ← get
          if c.super.smode ≠ 0 then bterr "BUPDKY" QNOWRT .none else within "BUPDKY" () (bupdkyBody key val)
          leave)) := rfl
      simp only [Call.answer, Call.name, Call.busy, Call.body, Call.tail]
      rw [hmap, hapi, api_bind ho]
      have herr := errOf_modify (c := c.clear) hm "BUPDKY" (bupdkyBody key val)
      change Prog.bind _ _ = _
      rw [herr]
      change (errOf (locked "BUPDKY" () (bupdkyBody key val)) >>= fun code => pure (code, none) : BT (Int × Option Int))
        c.clear = _
      simp only [errOf, LawfulMonad.bind_assoc, pure_bind]

end Shape

end Btlib
