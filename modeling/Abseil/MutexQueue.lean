import Abseil.Loop
import Mathlib.Tactic

/-!
# The waiter queue of a mutex

The queue operations of `mutex.cc`, on the `PerThreadSynch` records of all threads. The queue is
a circular list through `next`; `head` is its last waiter. The `skip` pointers form a
second structure over it : a non-null `skip` leads to a later waiter, past waiters that
wait in the same way.

There are `n` threads, so no loop over the queue takes more than `n + 1` rounds unless
the pointers are corrupt; a loop that does is reported as `endlessLoop`. A null
dereference and a failed `ABSL_RAW_CHECK` are errors as well.

Not modelled : the mutex word (the lock itself, `kMuDesig` and `kMuWrWait`) and the
reader count kept in the last waiter. Which thread may run which operation is in the
conditions of the steps (`Abseil.MutexRun`).
-/

open BoundedLoop

namespace Abseil.Mutex

open Function

/-! ## Data -/

/-- `MuHow`. -/
inductive MuHow
  | kShared
  | kExclusive
  deriving DecidableEq, Repr

/-- The representative fields of a `Condition`. -/
structure Condition where
  eval : ℕ
  arg : ℕ
  callback : List UInt8
  deriving DecidableEq, Repr

/-- `Condition::GuaranteedEqual`. -/
def guaranteedEqual : Option Condition → Option Condition → Bool
  | some a, some b => a.eval == b.eval && a.arg == b.arg && a.callback == b.callback
  | a, b => a.isNone && b.isNone

/-- What a thread waits for, and the flags it is enqueued with : `SynchWaitParams`, the
priority read on entry, and `kMuHasBlocked` and `kMuIsCond`. -/
structure WaitParams where
  how : MuHow
  cond : Option Condition
  priority : ℤ
  hasBlocked : Bool
  isCond : Bool

/-- The `PerThreadSynch` records of all threads, field by field, with the fields of
their `waitp`. -/
structure Heap (n : ℕ) where
  next : Fin n → Option (Fin n)
  skip : Fin n → Option (Fin n)
  maySkip : Fin n → Bool
  wake : Fin n → Bool
  condWaiter : Fin n → Bool
  maybeUnlocking : Fin n → Bool
  priority : Fin n → ℤ
  how : Fin n → MuHow
  cond : Fin n → Option Condition
  /-- `state == kQueued`. -/
  queued : Fin n → Bool

/-- What can go wrong. -/
inductive MutexError
  | nullPointer
  | endlessLoop
  | rawCheck (message : String)
  deriving DecidableEq, Repr

variable {n : ℕ} (H : Heap n)

namespace Heap

/-- An assignment to `next`. -/
def setNext (x : Fin n) (y : Option (Fin n)) : Heap n :=
  { H with next := update H.next x y }

/-- An assignment to `skip`. -/
def setSkip (x : Fin n) (y : Option (Fin n)) : Heap n :=
  { H with skip := update H.skip x y }

/-- An assignment to `wake`. -/
def setWake (x : Fin n) (b : Bool) : Heap n :=
  { H with wake := update H.wake x b }

/-- An assignment to `may_skip`. -/
def setMaySkip (x : Fin n) (b : Bool) : Heap n :=
  { H with maySkip := update H.maySkip x b }

/-- An assignment to `maybe_unlocking`. -/
def setMaybeUnlocking (x : Fin n) (b : Bool) : Heap n :=
  { H with maybeUnlocking := update H.maybeUnlocking x b }

/-- An assignment to `state`. -/
def setQueued (x : Fin n) (b : Bool) : Heap n :=
  { H with queued := update H.queued x b }

end Heap

/-- `x->next`, to be dereferenced. -/
def nextOf (x : Fin n) : Except MutexError (Fin n) :=
  match H.next x with
  | some y => .ok y
  | none => .error .nullPointer

/-- `ABSL_RAW_CHECK`. -/
def rawCheck (b : Bool) (message : String) : Except MutexError Unit :=
  if b then .ok () else .error (.rawCheck message)

/-- `MuEquivalentWaiter`. -/
def muEquivalentWaiter (x y : Fin n) : Bool :=
  H.how x == H.how y && H.priority x == H.priority y &&
    guaranteedEqual (H.cond x) (H.cond y)

/-! ## Skip pointers -/

/-- A round of the loop of `Skip` : shift `(x0, x1, x2)` along the chain and
short-circuit `x0`. -/
def skipRound : Heap n × Fin n × Fin n →
    Except MutexError (Round (Heap n × Fin n × Fin n) (Heap n × Fin n))
  | (H, x1, x2) =>
    match H.skip x2 with
    | none => .ok (.done (H, x2))
    | some x3 => .ok (.next (H.setSkip x1 (some x3), x2, x3))

/-- `Skip`. -/
def skip (H : Heap n) (x : Fin n) : Except MutexError (Heap n × Fin n) :=
  match H.skip x with
  | none => .ok (H, x)
  | some x2 => do
    let (H, x1) ← runLoop .endlessLoop skipRound (n + 1) (H, x, x2)
    .ok (H.setSkip x (some x1), x1)

/-- `FixSkip`. -/
def fixSkip (ancestor toBeRemoved : Fin n) : Heap n :=
  if H.skip ancestor = some toBeRemoved then
    if (H.skip toBeRemoved).isSome then H.setSkip ancestor (H.skip toBeRemoved)
    else if H.next ancestor ≠ some toBeRemoved then H.setSkip ancestor (H.next ancestor)
    else H.setSkip ancestor none
  else H

/-! ## Enqueue -/

/-- A round of the search for the place of `s` in priority order. -/
def enqueueRound (s : Fin n) : Heap n × Fin n →
    Except MutexError (Round (Heap n × Fin n) (Heap n × Fin n))
  | (H, advanceTo) => do
    let enqueueAfter := advanceTo
    let next ← nextOf H enqueueAfter
    let (H, advanceTo) ← skip H next
    if H.priority s ≤ H.priority advanceTo then .ok (.next (H, advanceTo))
    else .ok (.done (H, enqueueAfter))

/-- The waiter `s` is to be put after, if it goes by priority. -/
def findEnqueueAfter (head s : Fin n) :
    Except MutexError (Heap n × Option (Fin n)) :=
  if H.priority s > H.priority head then
    if H.maybeUnlocking head = false then do
      let (H, enqueueAfter) ← runLoop .endlessLoop (enqueueRound s) (n + 1) (H, head)
      .ok (H, some enqueueAfter)
    else if H.how s = .kExclusive ∧ H.cond s = none then .ok (H, some head)
    else .ok (H, none)
  else .ok (H, none)

/-- `s->next = x->next; x->next = s`. -/
def linkAfter (x s : Fin n) : Heap n :=
  (H.setNext s (H.next x)).setNext x (some s)

/-- `if (MuEquivalentWaiter(s, s->next)) s->skip = s->next`. -/
def skipToSuccessor (s : Fin n) : Except MutexError (Heap n) := do
  let next ← nextOf H s
  .ok (if muEquivalentWaiter H s next then H.setSkip s (some next) else H)

/-- The fields of a record on entering the queue. -/
def enterQueue (s : Fin n) (p : WaitParams) : Heap n :=
  { H with
    how := update H.how s p.how
    cond := update H.cond s p.cond
    skip := update H.skip s none
    maySkip := update H.maySkip s true
    wake := update H.wake s false
    condWaiter := update H.condWaiter s p.isCond
    priority := update H.priority s p.priority
    queued := update H.queued s true }

/-- `enqueue_after` may skip to its new successor. -/
def skipToNew (head enqueueAfter : Fin n) : Except MutexError (Heap n) :=
  if enqueueAfter ≠ head ∧ H.maySkip enqueueAfter then skipToSuccessor H enqueueAfter else .ok H

/-- Insert `s` after `enqueueAfter`. -/
def insertAfter (head enqueueAfter s : Fin n) :
    Except MutexError (Heap n × Fin n) := do
  let H := linkAfter H enqueueAfter s
  rawCheck ((H.skip enqueueAfter).isNone || muEquivalentWaiter H enqueueAfter s)
    "Mutex Enqueue failure"
  let H ← skipToNew H head enqueueAfter
  let H ← skipToSuccessor H s
  .ok (H, head)

/-- Insert `s` at the front, where a thread that has waited before goes back to. -/
def insertFront (head s : Fin n) : Except MutexError (Heap n × Fin n) := do
  let H ← skipToSuccessor (linkAfter H head s) s
  .ok (H, head)

/-- Insert `s` at the back. -/
def insertBack (head s : Fin n) : Heap n × Fin n :=
  let H := linkAfter H head s
  let H := H.setMaybeUnlocking s (H.maybeUnlocking head)
  if H.maySkip head && muEquivalentWaiter H head s then (H.setSkip head (some s), s) else (H, s)

/-- `Enqueue` on a queue with the last waiter `head`, once `s` is set up. -/
def enqueueNonEmpty (head s : Fin n) (hasBlocked : Bool) :
    Except MutexError (Heap n × Fin n) := do
  let (H, enqueueAfter) ← findEnqueueAfter H head s
  match enqueueAfter with
  | some enqueueAfter => insertAfter H head enqueueAfter s
  | none =>
    let first ← nextOf H head
    if hasBlocked ∧ H.priority s ≥ H.priority first ∧
        (H.maybeUnlocking head = false ∨
          (H.how s = .kExclusive ∧ guaranteedEqual (H.cond s) none)) then
      insertFront H head s
    else .ok (insertBack H head s)

/-- `Enqueue` : the new heap and the new last waiter. -/
def enqueue (head : Option (Fin n)) (s : Fin n) (p : WaitParams) :
    Except MutexError (Heap n × Fin n) :=
  let H := enterQueue H s p
  match head with
  | none => .ok ((H.setNext s (some s)).setMaybeUnlocking s false, s)
  | some head => enqueueNonEmpty H head s p.hasBlocked

/-! ## Dequeue -/

/-- `Dequeue` : take the successor of `pw` out of the queue. -/
def dequeue (head pw : Fin n) : Except MutexError (Heap n × Option (Fin n)) := do
  let w ← nextOf H pw
  let H := H.setNext pw (H.next w)
  if head = w then .ok (H, if pw = w then none else some pw)
  else if pw ≠ head then
    let next ← nextOf H pw
    if muEquivalentWaiter H pw next then
      if (H.skip next).isSome then .ok (H.setSkip pw (H.skip next), some head)
      else .ok (H.setSkip pw (some next), some head)
    else .ok (H, some head)
  else .ok (H, some head)

/-- The variables of the loop of `DequeueAllWakeable`. -/
structure WakeLoop (n : ℕ) where
  heap : Heap n
  head : Option (Fin n)
  pw : Fin n
  w : Option (Fin n)
  skipped : Bool
  wakeList : List (Fin n)

/-- `while (orig_h == head && (pw != head || !skipped))`. -/
def WakeLoop.again (origH : Fin n) (L : WakeLoop n) :
    Round (WakeLoop n) (Heap n × Option (Fin n) × List (Fin n)) :=
  if some origH = L.head ∧ (some L.pw ≠ L.head ∨ L.skipped = false) then .next L
  else .done (L.heap, L.head, L.wakeList)

/-- A round of `DequeueAllWakeable`. -/
def wakeRound (origH : Fin n) (L : WakeLoop n) :
    Except MutexError (Round (WakeLoop n) (Heap n × Option (Fin n) × List (Fin n))) :=
  match L.w, L.head with
  | some w, some head =>
    if L.heap.wake w then do
      rawCheck (L.heap.skip L.pw).isNone "bad skip in DequeueAllWakeable"
      let (H, head) ← dequeue L.heap head L.pw
      -- The woken waiter is now in the wake list, at its end.
      let H := H.setNext w none
      let wakeList := L.wakeList ++ [w]
      if H.how w = .kExclusive then .ok (.done (H, head, wakeList))
      else .ok (WakeLoop.again origH
        { L with heap := H, head := head, wakeList := wakeList, w := H.next L.pw })
    else do
      let (H, pw) ← skip L.heap w
      .ok (WakeLoop.again origH { L with heap := H, pw := pw, skipped := true, w := H.next pw })
  | _, _ => .error .nullPointer

/-- `DequeueAllWakeable` : the new heap, the new last waiter and the wake list. -/
def dequeueAllWakeable (head pw : Fin n) :
    Except MutexError (Heap n × Option (Fin n) × List (Fin n)) :=
  runLoop .endlessLoop (wakeRound head) (n + 1)
    { heap := H, head := some head, pw := pw, w := H.next pw, skipped := false, wakeList := [] }

/-! ## TryRemove -/

/-- Pass the waiter `w` in the search of `TryRemove` for `s` : skip the run of a waiter
not like `s`, and see that one like it does not skip to it. -/
def passWaiter (s w : Fin n) : Except MutexError (Heap n × Fin n) :=
  if muEquivalentWaiter H s w then .ok (fixSkip H w s, w) else skip H w

/-- A round of the search of `TryRemove` for `s`. -/
def tryRemoveRound (h s : Fin n) : Heap n × Fin n × Fin n →
    Except MutexError (Round (Heap n × Fin n × Fin n) (Heap n × Fin n × Fin n))
  | (H, _, w) => do
    let (H, pw) ← passWaiter H s w
    let w ← nextOf H pw
    if w ≠ s ∧ pw ≠ h then .ok (.next (H, pw, w)) else .ok (.done (H, pw, w))

/-- Search for `s` : the heap, and the last waiter passed with its successor. -/
def findWaiter (h s : Fin n) : Except MutexError (Heap n × Fin n × Fin n) := do
  let w ← nextOf H h
  if w ≠ s then runLoop .endlessLoop (tryRemoveRound h s) (n + 1) (H, h, w) else .ok (H, h, w)

/-- Remove the successor `w` of `pw`, if it is `s`. -/
def removeFound (h s pw w : Fin n) : Except MutexError (Heap n × Option (Fin n)) :=
  if w = s then do
    let (H, head) ← dequeue H h pw
    .ok ((H.setNext s none).setQueued s false, head)
  else .ok (H, some h)

/-- `if (h != nullptr) h->maybe_unlocking = false`. -/
def finishUnlocking : Option (Fin n) → Heap n
  | none => H
  | some h => H.setMaybeUnlocking h false

/-- `Mutex::TryRemove`, with lock and spinlock taken. -/
def tryRemove (head : Option (Fin n)) (s : Fin n) :
    Except MutexError (Heap n × Option (Fin n)) :=
  match head with
  | none => .ok (H, none)
  | some h => do
    let (H, pw, w) ← findWaiter H h s
    let (H, head) ← removeFound H h s pw w
    .ok (finishUnlocking H head, head)

/-! ## Unlock -/

/-- The local variables of `UnlockSlow` : the conditions' values while the lock is held,
the wait parameters if the unlocker queues itself, the last waiter searched so far, and
the waiter to wake with its predecessor. -/
structure Pass (n : ℕ) where
  truth : Condition → Bool
  waitp : Option (Fin n × WaitParams)
  oldH : Option (Fin n)
  w : Option (Fin n)
  pw : Option (Fin n)

/-- Where a pass is : about to take the spinlock, or walking the list without it. -/
inductive Phase (n : ℕ)
  | spin
  | scan (pwWalk : Option (Fin n)) (wWalk : Fin n)

/-- No condition, or a true one. -/
def runnable (truth : Condition → Bool) (H : Heap n) (x : Fin n) : Bool :=
  match H.cond x with
  | none => true
  | some c => truth c

/-- A waiter to wake is passed alone, any other with its run. -/
def scanPast (wWalk : Fin n) : Except MutexError (Heap n × Fin n) :=
  if H.wake wWalk then .ok (H, wWalk) else skip H wWalk

/-- Go on with the walk after `wWalk`, unless that was the end of it. -/
def scanNext (p : Pass n) (H : Heap n) (h wWalk : Fin n) :
    Except MutexError (Heap n × Pass n × Phase n) := do
  let (H, pwWalk) ← scanPast H wWalk
  if pwWalk ≠ h then do
    let wWalk ← nextOf H pwWalk
    .ok (H, p, .scan (some pwWalk) wWalk)
  else .ok (H, p, .spin)

/-- A round of the walk of `UnlockSlow` over the list up to `h`. -/
def scanRound (p : Pass n) (H : Heap n) (h : Fin n) (pwWalk : Option (Fin n)) (wWalk : Fin n) :
    Except MutexError (Heap n × Pass n × Phase n) :=
  let H := H.setWake wWalk false
  if runnable p.truth H wWalk then
    if p.w.isNone then
      let H := H.setWake wWalk true
      let p := { p with w := some wWalk, pw := pwWalk }
      if H.how wWalk = .kExclusive then .ok (H, p, .spin) else scanNext p H h wWalk
    else if H.how wWalk = .kShared then scanNext p (H.setWake wWalk true) h wWalk
    else scanNext p H h wWalk
  else scanNext p H h wWalk

/-- `Wakeup` of the whole wake list. -/
def wakeup (wakeList : List (Fin n)) : Heap n :=
  wakeList.foldl (fun H w => (H.setNext w none).setQueued w false) H

/-- Queue the unlocker itself, if it has to wait. -/
def enqueueSelf (head : Option (Fin n)) (waitp : Option (Fin n × WaitParams)) :
    Except MutexError (Heap n × Option (Fin n)) :=
  match waitp with
  | none => .ok (H, head)
  | some (s, p) => do
    let (H, h) ← enqueue H head s p
    .ok (H, some h)

/-- How a section of `UnlockSlow` under the spinlock ends. -/
inductive Section (n : ℕ)
  /-- The pass is over, with the last waiter and the waiters woken. -/
  | finished (heap : Heap n) (head : Option (Fin n)) (woken : List (Fin n))
  /-- Walk the list from here. -/
  | search (heap : Heap n) (pass : Pass n) (phase : Phase n)

/-- The terminator of the last search may skip again. -/
def restoreTerminator (h : Fin n) (oldH : Option (Fin n)) :
    Except MutexError (Heap n) :=
  match oldH with
  | none => .ok H
  | some o =>
    if H.maySkip o then .ok H
    else do
      let H := H.setMaySkip o true
      rawCheck (H.skip o).isNone "illegal skip from head"
      if h ≠ o then skipToSuccessor H o else .ok H

/-- Remove the waiters to wake, from `w` with predecessor `pw` on, and end the pass. -/
def removeAndFinish (p : Pass n) (H : Heap n) (h pw w : Fin n) :
    Except MutexError (Section n) := do
  rawCheck (H.next pw == some w) "pw not w's predecessor"
  let (H, head, wakeList) ← dequeueAllWakeable H h pw
  let (H, head) ← enqueueSelf H head p.waitp
  rawCheck (!wakeList.isEmpty) "unexpected empty wake list"
  .ok (.finished (wakeup (finishUnlocking H head) wakeList) head wakeList)

/-- No waiter can be woken : end the pass, or walk the part of the list not yet
searched. -/
def searchOrFinish (p : Pass n) (H : Heap n) (h : Fin n) : Except MutexError (Section n) :=
  if p.oldH = some h then do
    let (H, head) ← enqueueSelf (H.setMaybeUnlocking h false) (some h) p.waitp
    .ok (.finished H head [])
  else do
    let wWalk ← nextOf H (p.oldH.getD h)
    let H := H.setMaySkip h false
    rawCheck (H.skip h).isNone "illegal skip from head"
    let H := H.setMaybeUnlocking h true
    .ok (.search H { p with oldH := some h } (.scan p.oldH wWalk))

/-- Choose, once the terminator is restored : wake the first waiter if it is a writer
without condition, the waiters found if they are known, or search. -/
def wakeOrSearch (p : Pass n) (H : Heap n) (h first : Fin n) : Except MutexError (Section n) :=
  if H.how first = .kExclusive ∧ H.cond first = none then
    removeAndFinish p (H.setWake first true) h h first
  else
    match p.w with
    | none => searchOrFinish p H h
    | some w =>
      if H.how w = .kExclusive ∨ p.oldH = some h then removeAndFinish p H h (p.pw.getD h) w
      else searchOrFinish p H h

/-- The part of a round of `UnlockSlow` under the spinlock, with waiters. -/
def unlockSection (p : Pass n) (H : Heap n) (h : Fin n) : Except MutexError (Section n) := do
  rawCheck (p.oldH.isNone || H.maybeUnlocking h) "Mutex queue changed beneath us"
  let H ← restoreTerminator H h p.oldH
  let first ← nextOf H h
  wakeOrSearch p H h first

end Abseil.Mutex
