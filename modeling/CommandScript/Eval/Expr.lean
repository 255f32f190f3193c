import CommandScript.Eval.Machine
import CommandScript.Value.Member
import CommandScript.Value.Operator

/-!
# Eval/Expr — the values of expressions

Operands, items and arguments are evaluated from left to right. `&&` and `||` evaluate their right operand
only if the left one does not decide. How functions are called is a parameter: evaluation itself recurses
on the expression alone.
-/

namespace CommandScript

/-- A number for a part of a range. -/
def Value.toBound (part : RangePart) : Value → Except Error Float
  | .number x => .ok x
  | v => .error (.type (.rangePart part v.kind))

/-- The value of a part of a range as a number. -/
def Exec.bound (part : RangePart) (v : Value) : Exec Float := Exec.look fun _ => v.toBound part

/-- The range between two numbers. -/
def Exec.makeRange (start stop : Float) (step : Option Float) : Exec Value :=
  match Range.make start stop step with
  | .ok r => pure (.range r)
  | .error fault => throw (.invalidRange fault)

/-- Apply a value to arguments. -/
def Exec.apply (call : Caller) (callee : Value) (args : List Value) : Exec Value :=
  match callee with
  | .function f => call f args
  | v => throw (.type (.notCallable v.kind))

mutual
/-- The value of an expression. -/
def Expr.eval (call : Caller) : Expr → Exec Value
  | .number x => pure (.number x)
  | .string s => Exec.allocate fun store => store.newString s
  | .template parts => do
    let text ← Part.fill Exec.insertionOf parts
    Exec.allocate fun store => store.newString text
  | .boolean b => pure (.boolean b)
  | .none => pure .none
  | .var name => Exec.lookup name
  | .list items => do
    let values ← Expr.evalAll call items
    Exec.allocate fun store => store.newList values
  | .range start stop .none => do
    let a ← Exec.bound .start (← start.eval call)
    let b ← Exec.bound .stop (← stop.eval call)
    Exec.makeRange a b .none
  | .range start stop (.some step) => do
    let a ← Exec.bound .start (← start.eval call)
    let b ← Exec.bound .stop (← stop.eval call)
    let c ← Exec.bound .step (← step.eval call)
    Exec.makeRange a b (.some c)
  | .binary op left right => do
    let a ← left.eval call
    match op with
    | .and => if ← Exec.isTruthy a then right.eval call else pure a
    | .or => if ← Exec.isTruthy a then pure a else right.eval call
    | op =>
      let b ← right.eval call
      Exec.compute fun store => store.binary op a b
  | .unary op operand => do
    let v ← operand.eval call
    Exec.look fun m => m.store.unary op v
  | .call callee args => do
    let f ← callee.eval call
    let values ← Expr.evalAll call args
    Exec.apply call f values
  | .member receiver name args => do
    let v ← receiver.eval call
    let values ← Expr.evalAll call args
    Exec.onStore fun store => store.callMember v name values
  | .index target place => do
    let v ← target.eval call
    let i ← place.eval call
    Exec.compute fun store => store.element v i

/-- The values of expressions, in order. -/
def Expr.evalAll (call : Caller) : List Expr → Exec (List Value)
  | [] => pure []
  | e :: es => do
    let v ← e.eval call
    let vs ← Expr.evalAll call es
    return v :: vs
end

end CommandScript
