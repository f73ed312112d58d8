import Fibers.Backoff
import Fibers.Script.Expr

/-!
# Programs of scripts

The forms that effects and resources take when they are given as data.  A program
that depends on the value of another one has a name for it, and the part in which
the name is bound — its body — is built when the value is there.  Every other part
of a program is built together with it.

## Main definitions

* `Answer` — ways to complete a wait.
* `Callback` — what a wait does while it is registered.
* `Program` — effects as data.
* `Holding` — resources as data.
-/

namespace Fibers.Script

/-- A way to complete a wait. -/
inductive Answer where
  /-- With a value. -/
  | succeed (v : Expr)
  /-- With an expected failure. -/
  | fail (v : Expr)
  /-- As an exit says. -/
  | done (x : ExitExpr)

/-- What a wait does while it is registered. -/
inductive Callback where
  /-- Complete it. -/
  | answer (a : Answer)
  /-- Keep the waiting place under a name. -/
  | store (slot : String)
  /-- Panic. -/
  | panic (message : String)

/-- A point at which two effects or resources are put together in order. -/
inductive Sequel where
  /-- Both values, as a pair. -/
  | both
  /-- The value of the first. -/
  | first
  /-- The value of the second. -/
  | second
  deriving DecidableEq, Repr, Inhabited

mutual

/-- Effects as data. -/
inductive Program where
  /-- End with a value. -/
  | succeed (v : Expr)
  /-- End with an expected failure. -/
  | fail (v : Expr)
  /-- End with a cause. -/
  | halt (c : CauseExpr)
  /-- End with a defect asked for. -/
  | dieMessage (message : Expr)
  /-- End with a defect. -/
  | die (d : Defect)
  /-- End as an exit says. -/
  | done (x : ExitExpr)
  /-- End with a value computed when it is carried out. -/
  | sync (v : Expr)
  /-- End with a value or a failure computed when it is carried out. -/
  | trySync (good : Bool) (v : Expr)
  /-- Write to the log. -/
  | log (v : Expr)
  /-- A program built when it is carried out. -/
  | suspend (body : Program)
  /-- One of two programs. -/
  | cond (test : Expr) (yes no : Program)
  /-- Something read off the environment. -/
  | access (x : String) (v : Expr)
  /-- A program that depends on the environment. -/
  | accessM (x : String) (body : Program)
  /-- The environment. -/
  | environment
  /-- The identity of the fiber. -/
  | fiberId
  /-- Stop this fiber. -/
  | interrupt
  /-- Let other fibers go first. -/
  | yieldNow
  /-- Wait for some time. -/
  | sleep (millis : Nat)
  /-- Wait for ever. -/
  | never
  /-- Count up to a number, one link at a time. -/
  | countTo (n : Nat)
  /-- Count up to a number, in a tower of maps. -/
  | leftMaps (n : Nat)
  /-- Wait until the waiting place is completed; if the wait is given up, log what
  `cancel` says to that. -/
  | async (acts : List Callback) (cancel : Option Expr)
  /-- Complete a wait that was kept under a name. -/
  | resume (slot : String) (a : Answer)
  /-- Transform the value. -/
  | map (e : Program) (x : String) (v : Expr)
  /-- Continue with the value. -/
  | chain (e : Program) (x : String) (body : Program)
  /-- Make a program of the value, then carry it out. -/
  | flatten (e : Program) (x : String) (body : Program)
  /-- Both in order. -/
  | zip (sequel : Sequel) (a b : Program)
  /-- Both in order, with a combination of their values. -/
  | zipWith (a b : Program) (x y : String) (v : Expr)
  /-- Replace the value. -/
  | as (e : Program) (v : Expr)
  /-- Drop the value. -/
  | asUnit (e : Program)
  /-- Continue with the value, and keep it. -/
  | tap (e : Program) (x : String) (body : Program)
  /-- Over and over again. -/
  | forever (e : Program)
  /-- Once, and a number of times more. -/
  | repeatN (n : Nat) (e : Program)
  /-- All in order. -/
  | collectAll (es : List Program)
  /-- One for each element of a list, in order. -/
  | forEach (items : Expr) (x : String) (body : Program)
  /-- Transform every expected failure. -/
  | mapError (e : Program) (x : String) (v : Expr)
  /-- Continue with the leftmost expected failure. -/
  | catchFailure (wrapped : Bool) (e : Program) (x : String) (body : Program)
  /-- Continue with the whole failure, as an exit. -/
  | catchHalt (wrapped : Bool) (e : Program) (x : String) (body : Program)
  /-- Transform the leftmost expected failure or the value into a value. -/
  | fold (wrapped : Bool) (e : Program) (x : String) (onFail : Expr) (y : String)
      (onDone : Expr)
  /-- Continue with the leftmost expected failure or the value. -/
  | foldFailure (wrapped : Bool) (e : Program) (x : String) (onFail : Program) (y : String)
      (onDone : Program)
  /-- Continue with the whole failure, as an exit, or the value. -/
  | foldHalt (wrapped : Bool) (e : Program) (x : String) (onHalt : Program) (y : String)
      (onDone : Program)
  /-- Continue with another program where an expected failure is recorded. -/
  | orElse (wrapped : Bool) (a b : Program)
  /-- The value, or the leftmost expected failure, as a value. -/
  | either (wrapped : Bool) (e : Program)
  /-- The exit as a value. -/
  | result (wrapped : Bool) (e : Program)
  /-- Make a defect of the leftmost expected failure. -/
  | orDie (wrapped : Bool) (e : Program)
  /-- Acquire, use and release. -/
  | bracket (acquire : Program) (x : String) (use release : Program)
  /-- Acquire, use, and release for the exit of the use. -/
  | bracketExit (acquire : Program) (x : String) (use : Program) (exit : String)
      (release : Program)
  /-- Run a finalizer for the exit. -/
  | onExit (e : Program) (x : String) (finalizer : Program)
  /-- Run a finalizer. -/
  | ensuring (e finalizer : Program)
  /-- Run a finalizer after a cancellation. -/
  | onInterrupt (e finalizer : Program)
  /-- Run in the given environment. -/
  | provide (v : Expr) (e : Program)
  /-- Run in an environment made from the one around. -/
  | provideSome (x : String) (v : Expr) (e : Program)
  /-- Run with interruption not allowed. -/
  | uninterruptible (e : Program)
  /-- Run with interruption allowed. -/
  | interruptible (e : Program)
  /-- Run with interruption not allowed, told the status on entry. -/
  | mask (x : String) (body : Program)
  /-- Run with the status found on entry to a masked region. -/
  | restore (r : Expr) (e : Program)
  /-- Start a fiber. -/
  | fork (daemon : Bool) (e : Program)
  /-- Adopt the exit of a fiber, once. -/
  | join (f : Expr)
  /-- The exit of a fiber as a value. -/
  | awaitExit (f : Expr)
  /-- Ask a fiber to stop, and wait for it. -/
  | interruptFiber (f : Expr)
  /-- Ask a fiber to stop. -/
  | signal (f : Expr)
  /-- Run both at once and go on with the one that finishes first. -/
  | raceFold (a b : Program) (x f : String) (onLeft onRight : Program)
  /-- Run both at once; the first success. -/
  | race (a b : Program)
  /-- Run both at once; both values. -/
  | zipPar (a b : Program)
  /-- Run both at once, with a combination of their values. -/
  | zipParWith (a b : Program) (x y : String) (v : Expr)
  /-- A limit on the time. -/
  | timeout (millis : Nat) (e : Program)
  /-- Wait for some time first. -/
  | delay (millis : Nat) (e : Program)
  /-- All at once. -/
  | collectAllPar (es : List Program)
  /-- One for each element of a list, all at once. -/
  | forEachPar (items : Expr) (x : String) (body : Program)
  /-- Try again as long as a program says so. -/
  | retryWhileM (e : Program) (x : String) (body : Program)
  /-- Try again as long as a test of the failure holds. -/
  | retryWhile (e : Program) (x : String) (test : Expr)
  /-- Try again until a test of the failure holds. -/
  | retryUntil (e : Program) (x : String) (test : Expr)
  /-- Try again a number of times. -/
  | retryN (n : Nat) (e : Program)
  /-- Try again as a policy says. -/
  | retryPolicy (policy : Backoff) (e : Program) (x : String) (test : Expr)
  /-- A new cell. -/
  | newCell (v : Expr)
  /-- The value of a cell. -/
  | getCell (r : Expr)
  /-- Replace the value of a cell. -/
  | setCell (r v : Expr)
  /-- Compute a result and a new value. -/
  | modify (r : Expr) (x : String) (v : Expr)
  /-- Compute a result and a new value, or leave the value. -/
  | modifySome (r default : Expr) (x : String) (v : Expr)
  /-- Compute a new value. -/
  | update (r : Expr) (x : String) (v : Expr)
  /-- Compute a new value, and end with it. -/
  | updateAndGet (r : Expr) (x : String) (v : Expr)
  /-- Compute a new value, and end with the old one. -/
  | getAndUpdate (r : Expr) (x : String) (v : Expr)
  /-- Replace the value, and end with the old one. -/
  | getAndSet (r v : Expr)
  /-- Compute a new value, or leave the value. -/
  | updateSome (r : Expr) (x : String) (v : Expr)
  /-- A new channel. -/
  | newChannel (capacity : Option Nat)
  /-- Offer an element. -/
  | offer (q v : Expr)
  /-- Take an element. -/
  | take (q : Expr)
  /-- Take an element if there is one. -/
  | poll (q : Expr)
  /-- Take some of the elements that are there, all of them if there is no limit. -/
  | drain (q : Expr) (limit : Option Nat)
  /-- How many elements there are. -/
  | size (q : Expr)
  /-- Whether a channel has been closed. -/
  | isClosed (q : Expr)
  /-- Close a channel. -/
  | close (q : Expr)
  /-- Wait until a channel has been closed. -/
  | awaitClose (q : Expr)
  /-- Use a resource. -/
  | use (m : Holding) (x : String) (body : Program)
  /-- Acquire a resource and leave its release to the holder. -/
  | allocate (m : Holding)
  /-- Release a leased resource. -/
  | release (l : Expr)
  /-- Release a leased resource for an exit. -/
  | releaseExit (l : Expr) (x : ExitExpr)

/-- Resources as data. -/
inductive Holding where
  /-- A value. -/
  | succeed (v : Expr)
  /-- The value of an effect. -/
  | ofEffect (e : Program)
  /-- What cannot be acquired. -/
  | fail (v : Expr)
  /-- What is released in the end. -/
  | bracket (acquire : Program) (x : String) (release : Program)
  /-- What is released in the end, for the exit of its use. -/
  | bracketExit (acquire : Program) (x exit : String) (release : Program)
  /-- A resource built when it is acquired. -/
  | suspend (body : Holding)
  /-- A fiber. -/
  | fiber (e : Program)
  /-- A resource, and inside it another one. -/
  | chain (m : Holding) (x : String) (body : Holding)
  /-- A resource, and inside it another one whose value is dropped. -/
  | chainTap (m : Holding) (x : String) (body : Holding)
  /-- Transform the value. -/
  | map (m : Holding) (x : String) (v : Expr)
  /-- Replace the value. -/
  | as (m : Holding) (v : Expr)
  /-- Both, the second inside the first. -/
  | zip (a b : Holding)
  /-- Both, the second inside the first, with a combination of their values. -/
  | zipWith (a b : Holding) (x y : String) (v : Expr)
  /-- Both at once. -/
  | parZip (a b : Holding)
  /-- Both at once, with a combination of their values. -/
  | parZipWith (a b : Holding) (x y : String) (v : Expr)
  /-- Acquire and release in an environment made from the one around. -/
  | provideSome (m : Holding) (x : String) (v : Expr)

end

instance : Inhabited Program := ⟨.yieldNow⟩

instance : Inhabited Holding := ⟨.fail default⟩

end Fibers.Script
