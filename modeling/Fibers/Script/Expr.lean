import Fibers.Effect.Shared

/-!
# Expressions of scripts

A script is a program given as data.  Its expressions compute values from the
names in scope; evaluating one is an action, since an expression can look at the
handles of the runtime, write to a cell, and panic.  An operand of the wrong kind
is a panic as well.

## Main definitions

* `Scope` — the names that are bound.
* `Expr`, `ExitExpr`, `CauseExpr` — expressions for values, exits and causes.
* `Expr.eval`, `ExitExpr.eval`, `CauseExpr.eval` — what they stand for.
-/

namespace Fibers.Script

/-! ### Scopes -/

/-- The names that are bound, the last binding of a name first. -/
abbrev Scope := List (String × Value)

/-- Binds a name. -/
def Scope.bind (scope : Scope) (name : String) (v : Value) : Scope := (name, v) :: scope

/-- The value of a name. -/
def Scope.get (scope : Scope) (name : String) : Action Value :=
  match scope.lookup name with
  | some v => pure v
  | none => Action.fail s!"unbound variable {name}"

/-! ### Operands -/

/-- The operations on integers, which wrap around in 64 bits. -/
inductive Arithmetic where
  /-- The sum. -/
  | add
  /-- The difference. -/
  | sub
  /-- The product. -/
  | mul
  deriving DecidableEq, Repr, Inhabited

/-- The number in the range of 64-bit integers that differs from the given one by a
multiple of the length of the range. -/
def wrap (n : Int) : Int := n.bmod (1 <<< 64)

/-- The result of an operation. -/
def Arithmetic.apply (op : Arithmetic) (a b : Int) : Int :=
  wrap <|
    match op with
    | .add => a + b
    | .sub => a - b
    | .mul => a * b

/-- An operand that should be an integer. -/
def integer : Value → Action Int
  | .int n => pure n
  | _ => Action.fail "expected an integer"

/-- An operand that should be a truth value. -/
def truth : Value → Action Bool
  | .bool b => pure b
  | _ => Action.fail "expected a bool"

/-- An operand that should be a list. -/
def elements : Value → Action (List Value)
  | .list items => pure items
  | _ => Action.fail "expected a list"

/-- An operand that should be a cell. -/
def cellOf : Value → Action CellId
  | .cell cell => pure cell
  | _ => Action.fail "expected a ref"

/-- An operand that should be a channel. -/
def channelOf : Value → Action ChannelId
  | .channel channel => pure channel
  | _ => Action.fail "expected a queue"

/-- An operand that should be a fiber. -/
def fiberOf : Value → Action FiberId
  | .fiber fiber => pure fiber
  | _ => Action.fail "expected a fiber"

/-- An operand that should be an exit. -/
def exitOf : Value → Action (Exit Value Value)
  | .exit x => pure x
  | _ => Action.fail "expected an exit"

/-- An operand that should be an optional value. -/
def optionOf : Value → Action (Option Value)
  | .none => pure Option.none
  | .some v => pure (Option.some v)
  | _ => Action.fail "expected an option"

/-- An operand that should be a pair. -/
def pairOf : Value → Action (Value × Value)
  | .list [a, b] => pure (a, b)
  | _ => Action.fail "expected a pair"

/-- The text of a value in another text: a text stands for itself. -/
def spliced (store : Store) : Value → String
  | .text s => s
  | v => store.render v

/-- The messages of an exit: of every cause, or of the value. -/
def displayed (store : Store) : Exit Value Value → String
  | .done v => store.render v
  | .halt h => h.display store.reading

/-! ### Questions about one operand -/

/-- What can be asked about a value. -/
inductive Question where
  /-- The negation of a truth value. -/
  | negation
  /-- The number of characters or elements. -/
  | length
  /-- The value of a cell. -/
  | content
  /-- How much a channel can hold. -/
  | capacity
  /-- The identity of a fiber. -/
  | identity
  /-- Whether a fiber has finished. -/
  | finished
  /-- Whether an exit has a value. -/
  | isDone
  /-- Whether the primary cause of an exit records a cancellation. -/
  | isInterrupted
  /-- The expected failures of an exit, in order. -/
  | failures
  /-- The messages of an exit. -/
  | display
  /-- The text that shows the structure of a handle. -/
  | debug
  deriving DecidableEq, Repr, Inhabited

/-- The answer to a question. -/
def Question.answer (v : Value) : Question → Action Value
  | .negation => do
    let b ← truth v
    pure (.bool !b)
  | .length =>
    match v with
    | .text s => pure (.int s.length)
    | v => do
      let items ← elements v
      pure (.int items.length)
  | .content => do
    let cell ← cellOf v
    cell.read
  | .capacity => do
    let channel ← channelOf v
    let store ← Action.observe
    pure (.ofOption (((store.channel? channel).bind Channel.capacity).map fun n => .int n))
  | .identity => do
    let fiber ← fiberOf v
    pure (.id fiber)
  | .finished => do
    let fiber ← fiberOf v
    let store ← Action.observe
    pure (.bool (store.isFinished fiber))
  | .isDone => do
    let x ← exitOf v
    pure (.bool x.isDone)
  | .isInterrupted => do
    let x ← exitOf v
    pure (.bool x.isInterrupted)
  | .failures => do
    let x ← exitOf v
    pure (.list ((x.halt?.map Halt.failures).getD []))
  | .display => do
    let x ← exitOf v
    let store ← Action.observe
    pure (.text (displayed store x))
  | .debug => do
    let store ← Action.observe
    pure (.text (store.debug v))

/-! ### Expressions -/

/-- How a chain of causes is linked. -/
inductive Link where
  /-- One after the other. -/
  | seq
  /-- Neither before the other. -/
  | par
  deriving DecidableEq, Repr, Inhabited

/-- Two causes, linked. -/
def Link.join (link : Link) (left right : Cause Value) : Cause Value :=
  match link with
  | .seq => .seq left right
  | .par => .par left right

/-- A cause to which the failures `0`, `1`, … are linked one after the other, on
the right of what is there if `growsLeft` says so, and else on the left of it. -/
def Link.tower (link : Link) (growsLeft : Bool) (n : Nat) (leaf : Cause Value) : Cause Value :=
  (List.range n).foldl
    (fun acc i =>
      let failure := Cause.fail (.int (Int.ofNat i))
      if growsLeft then link.join acc failure else link.join failure acc)
    leaf

mutual

/-- Expressions for values. -/
inductive Expr where
  /-- The value itself. -/
  | literal (v : Value)
  /-- The value of a name. -/
  | var (name : String)
  /-- A list. -/
  | list (items : List Expr)
  /-- An operation on integers. -/
  | arithmetic (op : Arithmetic) (a b : Expr)
  /-- Whether an integer is less than another. -/
  | less (a b : Expr)
  /-- Whether two values have the same text. -/
  | equal (a b : Expr)
  /-- One of two, as a truth value says. -/
  | cond (test yes no : Expr)
  /-- The last of several, all evaluated in order. -/
  | last (es : List Expr)
  /-- The texts of several, one after the other. -/
  | concat (es : List Expr)
  /-- The element of a list at a position. -/
  | item (list position : Expr)
  /-- A list with one more element at the end. -/
  | append (list element : Expr)
  /-- A value where there may be one. -/
  | some (e : Expr)
  /-- A good outcome. -/
  | ok (e : Expr)
  /-- A bad outcome. -/
  | err (e : Expr)
  /-- An exit. -/
  | exit (x : ExitExpr)
  /-- A panic. -/
  | panic (payload : PanicPayload)
  /-- Writes to a cell. -/
  | write (cell e : Expr)
  /-- What a question about a value is answered. -/
  | ask (question : Question) (e : Expr)

/-- Expressions for exits. -/
inductive ExitExpr where
  /-- An exit that a value holds. -/
  | held (e : Expr)
  /-- An exit with a value. -/
  | done (e : Expr)
  /-- An exit with a halt, as it is given. -/
  | halt (cause : CauseExpr) (remaining : List CauseExpr)
  /-- An exit with one cause. -/
  | cause (c : CauseExpr)

/-- Expressions for causes. -/
inductive CauseExpr where
  /-- Nothing. -/
  | empty
  /-- An expected failure. -/
  | fail (e : Expr)
  /-- A defect. -/
  | die (d : Defect)
  /-- A cancellation. -/
  | interrupt (source : FiberId)
  /-- One after the other, or neither before the other. -/
  | node (link : Link) (left right : CauseExpr)
  /-- One after the other, without empty sides. -/
  | andThen (left right : CauseExpr)
  /-- Neither before the other, without empty sides. -/
  | alongside (left right : CauseExpr)
  /-- A long chain. -/
  | tower (link : Link) (growsLeft : Bool) (n : Nat) (leaf : CauseExpr)

end

instance : Inhabited Expr := ⟨.literal .unit⟩

instance : Inhabited ExitExpr := ⟨.done default⟩

instance : Inhabited CauseExpr := ⟨.empty⟩

mutual

/-- The value of an expression. -/
def Expr.eval (scope : Scope) : Expr → Action Value
  | .literal v => pure v
  | .var name => scope.get name
  | .list items => do
    let vs ← Expr.evalAll scope items
    pure (.list vs)
  | .arithmetic op a b => do
    let x ← a.eval scope >>= integer
    let y ← b.eval scope >>= integer
    pure (.int (op.apply x y))
  | .less a b => do
    let x ← a.eval scope >>= integer
    let y ← b.eval scope >>= integer
    pure (.bool (x < y))
  | .equal a b => do
    let x ← a.eval scope
    let y ← b.eval scope
    let store ← Action.observe
    pure (.bool (store.render x == store.render y))
  | .cond test yes no => do
    let b ← test.eval scope >>= truth
    if b then yes.eval scope else no.eval scope
  | .last es => do
    let vs ← Expr.evalAll scope es
    pure (vs.getLast?.getD .unit)
  | .concat es => do
    let vs ← Expr.evalAll scope es
    let store ← Action.observe
    pure (.text (String.join (vs.map (spliced store))))
  | .item list position => do
    let items ← list.eval scope >>= elements
    let i ← position.eval scope >>= integer
    match if i < 0 then none else items[i.toNat]? with
    | some v => pure v
    | none => Action.fail "index out of range"
  | .append list element => do
    let items ← list.eval scope >>= elements
    let v ← element.eval scope
    pure (.list (items ++ [v]))
  | .some e => do
    let v ← e.eval scope
    pure (.some v)
  | .ok e => do
    let v ← e.eval scope
    pure (.ok v)
  | .err e => do
    let v ← e.eval scope
    pure (.err v)
  | .exit x => do
    let x ← x.eval scope
    pure (.exit x)
  | .panic payload => Action.throw payload
  | .write cell e => do
    let cell ← cell.eval scope >>= cellOf
    let v ← e.eval scope
    Action.writeCell cell v
    pure .unit
  | .ask question e => do
    let v ← e.eval scope
    question.answer v

/-- The values of expressions, evaluated in order. -/
def Expr.evalAll (scope : Scope) : List Expr → Action (List Value)
  | [] => pure []
  | e :: es => do
    let v ← e.eval scope
    let vs ← Expr.evalAll scope es
    pure (v :: vs)

/-- The exit of an expression. -/
def ExitExpr.eval (scope : Scope) : ExitExpr → Action (Exit Value Value)
  | .held e => e.eval scope >>= exitOf
  | .done e => do
    let v ← e.eval scope
    pure (.done v)
  | .halt cause remaining => do
    let c ← cause.eval scope
    let cs ← CauseExpr.evalAll scope remaining
    pure (.halt ⟨c, cs⟩)
  | .cause c => do
    let c ← c.eval scope
    pure (.ofCause c)

/-- The cause of an expression. -/
def CauseExpr.eval (scope : Scope) : CauseExpr → Action (Cause Value)
  | .empty => pure .empty
  | .fail e => do
    let v ← e.eval scope
    pure (.fail v)
  | .die d => pure (.die d)
  | .interrupt source => pure (.interrupt source)
  | .node link left right => do
    let l ← left.eval scope
    let r ← right.eval scope
    pure (link.join l r)
  | .andThen left right => do
    let l ← left.eval scope
    let r ← right.eval scope
    pure (l.andThen r)
  | .alongside left right => do
    let l ← left.eval scope
    let r ← right.eval scope
    pure (l.alongside r)
  | .tower link growsLeft n leaf => do
    let c ← leaf.eval scope
    pure (link.tower growsLeft n c)

/-- The causes of expressions, evaluated in order. -/
def CauseExpr.evalAll (scope : Scope) : List CauseExpr → Action (List (Cause Value))
  | [] => pure []
  | c :: cs => do
    let v ← c.eval scope
    let vs ← CauseExpr.evalAll scope cs
    pure (v :: vs)

end

end Fibers.Script
