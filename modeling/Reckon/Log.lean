import Reckon.Reduction

/-!
# The log of a reduction

While an expression is reduced, what is done to it is logged: in full what the stages make of it,
and in detail which integers are combined or dropped. An `Event` is one entry of the log, and
`Event.text` words it.

The log of an evaluation follows it operand by operand and ends where it fails. It is collected by
`Expr.evaluateLogged`, which does what `Expr.evaluate` does and keeps the log beside it
(`evaluateLogged_snd`).
-/

namespace Reckon

/-- How much detail an entry of the log goes into. -/
inductive LogLevel where
  | debug
  | trace
  deriving DecidableEq, Repr

/-- The word for a level. -/
def LogLevel.name : LogLevel → String
  | debug => "DEBUG"
  | trace => "TRACE"

/-- An entry of the log. -/
inductive Event where
  /-- An expression was flattened into this one. -/
  | flattened (e : Expr)
  /-- Subtractions were replaced by additions, which gave this expression. -/
  | additive (e : Expr)
  /-- The expression was brought into this canonical form. -/
  | canonical (e : Expr)
  /-- Two integers were combined. -/
  | folded (op : Op) (a b result : Int)
  /-- An operand was dropped, since it changed nothing. -/
  | dropped (op : Op) (n : Int)
  /-- The evaluation gave this expression. -/
  | evaluated (e : Expr)

namespace Event

/-- The level of an entry. -/
def level : Event → LogLevel
  | flattened _ | additive _ | canonical _ | evaluated _ => .debug
  | folded .. | dropped .. => .trace

/-- What an entry says. -/
def message : Event → String
  | flattened e => s!"flattened: {e}"
  | additive e => s!"rewrote subtraction: {e}"
  | canonical e => s!"canonical: {e}"
  | folded op a b result =>
    let a := String.ofList (Text.decimal a)
    let b := String.ofList (Text.decimal b)
    let result := String.ofList (Text.decimal result)
    s!"folded {a} {op} {b} = {result}"
  | dropped op n =>
    let n := String.ofList (Text.decimal n)
    s!"dropped {op} {n}"
  | evaluated e => s!"evaluated: {e}"

/-- The line of the log. -/
def text (event : Event) : String :=
  s!"{event.level.name} {event.message}"

end Event

/-! ### Evaluation -/

namespace Expr

/-- Logs how integers are combined into one, from the left. -/
def foldingLog (op : Op) (sum : Int) : List Int → List Event
  | [] => []
  | n :: ns =>
    .folded op sum n (op.accumulate sum n) :: foldingLog op (op.accumulate sum n) ns

/-- Logs what becomes of the operands of an addition or a multiplication. -/
def associativeLog (op : Op) (operands : List Expr) : List Event :=
  match (operands.flatMap (operandsUnder op)).filterMap value? with
  | [] => []
  | n :: ns => foldingLog op n ns

/-- Logs what becomes of the later operands of a subtraction or a division, among which no integers
are neighbours. The integer `first?` is the first operand, as long as the next one directly follows
it. -/
def laterLog (op : Op) (first? : Option Int) : List Expr → List Event
  | [] => []
  | .value n :: es =>
    if op = .div ∧ n = 0 then []
    else if n = op.unit then .dropped op n :: laterLog op first? es
    else
      match first? with
      | none => laterLog op none es
      | some first =>
        match op.integralResult? first n with
        | some result => .folded op first n result :: laterLog op none es
        | none => laterLog op none es
  | _ :: es => laterLog op none es

/-- Logs what becomes of the operands of a subtraction or a division. -/
def positionalLog (op : Op) (operands : List Expr) : List Event :=
  match mergeLeading op operands with
  | [] => []
  | first :: later => laterLog op first.value? (combineNeighbours op later)

/-- Logs what becomes of the operands of an operation. -/
def operationLog (op : Op) (operands : List Expr) : List Event :=
  if op.isAssociative then associativeLog op operands else positionalLog op operands

/-- Collects results with their logs, up to the first error. -/
def collectLogged : List (List Event × Except EvalError Expr) →
    List Event × Except EvalError (List Expr)
  | [] => ([], .ok [])
  | (log, .error error) :: _ => (log, .error error)
  | (log, .ok e) :: results =>
    let (logs, es) := collectLogged results
    (log ++ logs, es.map (e :: ·))

/-- An operation on operands that were evaluated with their logs. -/
def evaluateOperationLogged (op : Op) (results : List (List Event × Except EvalError Expr)) :
    List Event × Except EvalError Expr :=
  match collectLogged results with
  | (log, .error error) => (log, .error error)
  | (log, .ok operands) => (log ++ operationLog op operands, evaluateOperation op operands)

/-- Combines the integers in an expression and keeps the log. -/
def evaluateLogged : Expr → List Event × Except EvalError Expr :=
  fold (fun n => ([], .ok (.value n))) (fun name => ([], .ok (.var name))) evaluateOperationLogged

theorem evaluateLogged_operation (op : Op) (operands : List Expr) :
    evaluateLogged (.operation op operands) =
      evaluateOperationLogged op (operands.map evaluateLogged) := by
  simp [evaluateLogged]

theorem evaluateOperationLogged_snd (op : Op)
    (results : List (List Event × Except EvalError Expr)) :
    (evaluateOperationLogged op results).2 =
      (collectLogged results).2 >>= evaluateOperation op := by
  rw [evaluateOperationLogged]
  split <;> rename_i h <;> rw [h] <;> rfl

theorem collectLogged_snd (es : List Expr) (h : ∀ e ∈ es, e.evaluateLogged.2 = e.evaluate) :
    (collectLogged (es.map evaluateLogged)).2 = es.mapM evaluate := by
  induction es with
  | nil => rfl
  | cons e es ih =>
    have he := h e (by simp)
    have hes := ih fun e' he' => h e' (by simp [he'])
    rw [List.map_cons, List.mapM_cons, ← he, ← hes]
    match e.evaluateLogged with
    | (_, .error _) => rfl
    | (_, .ok _) => rfl

/-- Keeping the log does not change the result. -/
theorem evaluateLogged_snd (e : Expr) : e.evaluateLogged.2 = e.evaluate := by
  induction e with
  | value n => rfl
  | var name => rfl
  | operation op operands ih =>
    rw [evaluate_operation, evaluateLogged_operation, evaluateOperationLogged_snd,
      collectLogged_snd operands ih]

/-- The log of an evaluation, which ends with the result if there is one. -/
def evaluationLog (e : Expr) : List Event :=
  match e.evaluateLogged with
  | (log, .ok result) => log ++ [.evaluated result]
  | (log, .error _) => log

end Expr

/-! ### Reduction -/

/-- The log of bringing an expression into canonical form. -/
def Expr.canonicalLog (e : Expr) : List Event :=
  [.flattened e.flatten, .additive e.flatten.eliminateSubtraction, .canonical e.canonicalize]

/-- The log of a reduction. Nothing is logged for a text that is not an expression. -/
def reductionLog (text : List Char) : List Event :=
  match parse text with
  | .error _ => []
  | .ok expr => expr.canonicalLog ++ expr.canonicalize.evaluationLog

end Reckon
