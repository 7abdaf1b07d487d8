import Btlib.Source.Lock

namespace Btlib

variable [Build]

-- Back to the parent on the stack.
def pullParent : BT Unit := do
  let pos ← bpull
  setLf fun lf => { lf with lfpos := pos }
  let blk ← bpull
  setLf fun lf => { lf with lfblk := blk }

-- The results of the loop of `bfndky`: `status` and `*val`. A split block sends it back to the parent.
def bfndkyLoop : Nat → (cblk : Int) → Srh → BT (Int × Int)
  | 0, _, _ => hang
  | n + 1, cblk, o =>
      if cblk = ZNULL then return (QNOKEY, o.val)
      else do
        let nkeys ← bgtinf cblk .ZNKEYS
        let c ← get
        if nkeys = ZMXKEY ∧ c.super.smode = 0 then
          let newblk ← bsptbk cblk
          if newblk < 0 then
            bterr "BFNDKY" QSPLIT .none
            return (QNOKEY, o.val)
          else if cblk ≠ (← get).super.scroot then
            let pblk := (← get).lf.lfblk
            pullParent
            bfndkyLoop n pblk o
          else bfndkyLoop n cblk o
        else
          bpush c.lf.lfblk
          bpush c.lf.lfpos
          let o ← bsrhbk cblk { o with loc := -1 }
          setLf fun lf => { lf with lfblk := cblk, lfpos := o.loc }
          if o.result < 0 then bfndkyLoop n o.link1 o
          else if 0 < o.result then
            setLf fun lf => { lf with lfpos := lf.lfpos + 1 }
            bfndkyLoop n o.link2 o
          else
            setLf fun lf => { lf with lfexct := true }
            let r ← btduppos ZNEXT o.val
            return (0, r.2)

def bfndkySearch (key : Key) : BT (Int × Int) := do
  let lkey := keycpy key
  bstkin
  bclrlf
  setLf fun lf => { lf with lfkey := lkey }
  let root := (← get).super.scroot
  bfndkyLoop FUEL root { key := lkey }

-- `bfndky`: its code and `*val`.
def bfndky (key : Key) : BT (Int × Int) :=
  api "BFNDKY" (·, 0) do
    let r ← locked "BFNDKY" (QNOKEY, 0) (bfndkySearch key)
    if r.1 ≠ 0 then bterr "BFNDKY" QNOKEY (.key (keycpy key))
    let status ← btgerr
    pure (status, r.2)

def binskyPut (key : Key) (val : Int) (found : Bool) : BT Unit := do
  bterr0
  if found then
    let _ ← btdupkey key val
  else
    let _ ← bleaf 1
    let lf := (← get).lf
    bputky lf.lfblk ⟨keycpy key, val, ZNULL⟩ ZNULL ZNULL

def binsky (key : Key) (val : Int) : BT Int :=
  api "BINSKY" id <| errOf <| locked "BINSKY" () do
    let c ← get
    if c.super.smode ≠ 0 then bterr "BINSKY" QNOWRT .none
    else
      let dups_allowed ← bgtinf c.super.scroot .ZMISC
      let r ← bfndky (keycpy key)
      if r.1 = QNOKEY ∨ (r.1 = 0 ∧ dups_allowed ≠ 0) then binskyPut key val (r.1 = 0)
      else bterr "BINSKY" QDUP (.key key)

def bmodky (blk loc val : Int) : BT Unit := do
  if ZMXKEY ≤ loc ∨ loc < 0 then bterr "BMODKY" QLOCTB (.num loc)
  else
    let draddr ← btdupupd val
    if draddr = ZNULL then
      match ← brdblk blk with
      | none => bterr "BMODKY" QRDBLK (.num blk)
      | some b => wr blk (b.setKey loc { b.keyblk loc with val := val }) 1

-- The search of `bupdky` and `bdelky`; a null key stands for the last found one.
def findKey : Option Key → BT Int
  | none => pure 0
  | some key => do
      let r ← bfndky key
      pure r.1

-- A read-only handle is told apart before the lock is taken, and unlocked all the same.
def modifyKey (fn : String) (key : Option Key) (body : BT Unit) : BT Int :=
  api fn id <| errOf do
    let c ← get
    if c.super.smode ≠ 0 then bterr fn QNOWRT .none
    else
      within fn () do
        let status ← findKey key
        if status = 0 then body
    leave

def bupdky (key : Option Key) (val : Int) : BT Int :=
  modifyKey "BUPDKY" key do
    let lf := (← get).lf
    bmodky lf.lfblk lf.lfpos val

section Delete

def bjoin (lblk rblk : Int) (ke : KeyEnt) : BT Unit := do
  let lf := (← get).lf
  bremky lf.lfblk lf.lfpos
  bsetbs lblk true
  bputky lblk ke ZNULL ZNULL
  let lnkeys ← bgtinf lblk .ZNKEYS
  let rnkeys ← bgtinf rblk .ZNKEYS
  bcpybk lblk rblk lnkeys 0 rnkeys
  bstinf lblk .ZNKEYS (lnkeys + rnkeys)
  bmkfre rblk
  bsetbs lblk false

def setPos (f : Int → Int) : BT Unit := setLf fun lf => { lf with lfpos := f lf.lfpos }

-- `bsrhbk` at the last found position, given by a pointer to `lfpos`.
def bsrhlf : BT Srh := do
  let lf := (← get).lf
  let r ← bsrhbk lf.lfblk { loc := lf.lfpos }
  setPos fun _ => r.loc
  return r

def pushParent (cblk : Int) : BT Unit := do
  let lf := (← get).lf
  bpush lf.lfblk
  bpush lf.lfpos
  setLf fun lf => { lf with lfblk := cblk }

-- `bjnblk`: the value of `*cblk`, the joined block or `ZNULL`.
def bjnblk : BT Int := do
  let cblk := (← get).lf.lfblk
  pullParent
  let lf := (← get).lf
  let nkeys ← bgtinf lf.lfblk .ZNKEYS
  let cnkeys ← bgtinf cblk .ZNKEYS
  if lf.lfpos < nkeys then
    let r ← bsrhlf
    if r.result ≠ 0 then
      bterr "BJNBLK" QJNSE .none
      return cblk
    else
      let nkeys ← bgtinf r.link2 .ZNKEYS
      if cnkeys + nkeys < ZMXKEY - ZTHRES then
        bjoin cblk r.link2 (← get).keyent
        return cblk
      else joinLeft cblk cnkeys
  else joinLeft cblk cnkeys
where
  joinLeft (cblk cnkeys : Int) : BT Int := do
    if 0 < (← get).lf.lfpos then
      setPos (· - 1)
      let l ← bsrhlf
      if l.result ≠ 0 then
        bterr "BJNBLK" QJNSE .none
        return cblk
      else
        let nkeys ← bgtinf l.link1 .ZNKEYS
        if cnkeys + nkeys < ZMXKEY - ZTHRES then
          bjoin l.link1 cblk (← get).keyent
          return l.link1
        else
          setPos (· + 1)
          pushParent cblk
          return ZNULL
    else
      pushParent cblk
      return ZNULL

-- Moves `n` keys one by one; with `dir < 0` they come from the end of `fblk`.
def moveKeys (fblk tblk dir : Int) : Nat → (keypos : Int) → BT (Option Int)
  | 0, keypos => return some keypos
  | n + 1, keypos => do
      let r ← bsrhbk fblk { loc := keypos }
      if r.result ≠ 0 then
        bterr "BALBK1" QBALSE .none
        return none
      else
        let ke := (← get).keyent
        bremky fblk keypos
        bputky tblk ke ZNULL ZNULL
        moveKeys fblk tblk dir n (if dir < 0 then keypos - 1 else keypos)

def balbk1Move (lblk rblk fblk tblk dir : Int) (half : Nat) (keypos : Int) (ke : KeyEnt) :
    BT Unit := do
  bputky tblk ke ZNULL ZNULL
  match ← moveKeys fblk tblk dir half keypos with
  | none => pure ()
  | some keypos =>
      let r ← bsrhbk fblk { loc := keypos }
      if r.result ≠ 0 then bterr "BALBK1" QBALSE .none
      else
        let c ← get
        let nkeys ← bgtinf c.lf.lfblk .ZNKEYS
        let ppos := if c.lf.lfpos = nkeys then c.lf.lfpos - 1 else c.lf.lfpos
        brepky c.lf.lfblk ppos c.keyent lblk rblk
        bremky fblk keypos

def balbk1 (lblk rblk diff : Int) (ke : KeyEnt) : BT Unit := do
  let half := (diff.tdiv 2).natAbs
  if diff < 0 then balbk1Move lblk rblk rblk lblk 1 half 0 ke
  else
    let nkeys ← bgtinf lblk .ZNKEYS
    balbk1Move lblk rblk lblk rblk (-1) half (nkeys - 1) ke

def balblk : BT Unit := do
  let cblk := (← get).lf.lfblk
  pullParent
  let lf := (← get).lf
  let nkeys ← bgtinf lf.lfblk .ZNKEYS
  let cnkeys ← bgtinf cblk .ZNKEYS
  if lf.lfpos < nkeys then
    let r ← bsrhlf
    if r.result ≠ 0 then bterr "BALBLK" QBALSE .none
    else
      let nkeys ← bgtinf r.link2 .ZNKEYS
      let diff := cnkeys - nkeys
      if (ZMXKEY / 2 : Nat) < diff.natAbs then balbk1 cblk r.link2 diff (← get).keyent
      else balLeft cblk cnkeys
  else balLeft cblk cnkeys
where
  balLeft (cblk cnkeys : Int) : BT Unit := do
    if 0 < (← get).lf.lfpos then
      setPos (· - 1)
      let l ← bsrhlf
      if l.result ≠ 0 then bterr "BALBLK" QBALSE .none
      else
        let nkeys ← bgtinf l.link1 .ZNKEYS
        let diff := nkeys - cnkeys
        if (ZMXKEY / 2 : Nat) < diff.natAbs then balbk1 l.link1 cblk diff (← get).keyent
        else
          setPos (· + 1)
          pushParent cblk
    else pushParent cblk

-- `kep` points to the static buffer, so the key put into the target is what the buffer holds then.
def bdemteParent (cblk : Int) : BT Int := do
  pullParent
  let _ ← bgtinf (← get).lf.lfblk .ZNKEYS
  let rblke : Bool := (← get).lf.lfpos ≠ 0
  if rblke then setPos (· - 1)
  let r ← bsrhlf
  if r.result ≠ 0 then
    bterr "BDEMTE" QDEMSE .none
    return cblk
  else
    let lf := (← get).lf
    bremky lf.lfblk lf.lfpos
    let jblk := if rblke then r.link1 else r.link2
    let nkeys ← bgtinf jblk .ZNKEYS
    let newblk ← if nkeys = ZMXKEY then bsptbk jblk else pure jblk
    if nkeys = ZMXKEY ∧ newblk = ZNULL then
      bterr "BDEMTE" QDEMSP .none
      return cblk
    else
      let link1 := if rblke then newblk else r.link1
      if rblke then bputky link1 (← get).keyent ZNULL cblk
      else
        let nkeys ← bgtinf r.link2 .ZNKEYS
        bsetbs link1 true
        bcpybk link1 r.link2 0 0 nkeys
        bstinf link1 .ZNKEYS nkeys
        bsetbs link1 false
        bputky link1 (← get).keyent cblk ZNULL
      bmkfre r.link2
      return link1

-- `bdemte`: the new value of `*cblk`.
def bdemte (cblk : Int) : BT Int := do
  let lfblk := (← get).lf.lfblk
  if (← bgtinf lfblk .ZNKEYS) = 0 then
    if (← bgtinf lfblk .ZBTYPE) ≠ ZROOT then bdemteParent cblk
    else
      let nkeys ← bgtinf cblk .ZNKEYS
      bcpybk lfblk cblk 0 0 nkeys
      bstinf lfblk .ZNKEYS nkeys
      bmkfre cblk
      return ZNULL
  else return ZNULL

def bdemteLoop : Nat → (cblk : Int) → BT Unit
  | 0, _ => hang
  | n + 1, cblk => do
      if cblk = ZNULL then return
      else
        let cblk ← bdemte cblk
        bdemteLoop n cblk

-- The last key below the left link takes the place of a key that is not in a leaf.
def replaceByLast (blk pos : Int) (r : Srh) : BT Bool := do
  let _ ← bleaf 1
  setPos (· - 1)
  let s ← bsrhlf
  let c ← get
  if s.result ≠ 0 then
    bterr "BDELK1" QDELRP (.num c.lf.lfblk)
    pure false
  else
    brepky blk pos c.keyent r.link1 r.link2
    pure true

def mergeUp : BT Unit := do
  let cblk ← bjnblk
  if cblk = ZNULL then balblk
  bdemteLoop FUEL cblk

-- An exclusive handle searches once more, as the position may be lost by now.
def bdelk1Leaf : BT Unit := do
  let lf := (← get).lf
  bremky lf.lfblk lf.lfpos
  let type ← bgtinf lf.lfblk .ZBTYPE
  if type ≠ ZROOT then mergeUp
  let c ← get
  if ¬ c.shared ∧ c.err.qerror = 0 then
    let r ← bfndky c.lf.lfkey
    if r.1 = QNOKEY then bterr0

def bdelk1Key (key : Option Key) : BT Unit := do
  let lf := (← get).lf
  let r ← bsrhbk lf.lfblk { loc := lf.lfpos }
  if key.any fun key => decide (r.result ≠ 0 ∨ strcmp r.key key ≠ 0) then
    bterr "BDELK1" QDELER .none
  else
    let ok ← if r.link1 ≠ ZNULL then replaceByLast lf.lfblk lf.lfpos r else pure true
    if ok then bdelk1Leaf

def bdelk1 (key : Option Key) : BT Unit := do
  let lf := (← get).lf
  if ¬ lf.lfexct then bterr "BDELK1" QDELEX .none
  else
    let status ← btdeldup
    if status = ZNULL then bdelk1Key key

def bdelky (key : Option Key) : BT Int := modifyKey "BDELKY" key (bdelk1 key)

end Delete

end Btlib
