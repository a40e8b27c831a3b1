import Scriptlet.Proofs.Machine.Recursion
import Scriptlet.Proofs.Script.Sources

/-!
The code of a tree evaluates as the tree does. Expressions add their value to the operands and
statements change the variables as the tree changes its names; nothing else changes but the place
in the code and the latest result, which no script can see.

How much fuel a piece of code needs is found together with what it does. More fuel never harms, so
pieces that come together take the greater amount of both.
-/
namespace Scriptlet.Recursion

open Actions Code Compile
open Script (Expr Stmt Env Flow Exits Codes CodesAll Lies LiesAll evalAll execAll)

variable {World : Type} {host : Host World} {p : Program} {calls : Calls World}
variable {s t u : State World} {α β : Type} {a : α} {y : Scope} {env : Env}

theorem bind_some {x : Eval World α} {f : α → Eval World β} (ran : x s = some (a, t)) :
    (x >>= f) s = f a t := by
  change (x s).bind _ = _
  rw [ran]
  rfl

theorem place_bind (f : State World → Eval World β) : (get >>= f) s = f s s := rfl

theorem reading_ok {r : Cursor.Reading α} {ip : Nat} (ok : r ⟨s.ip, []⟩ = .ok a ⟨ip, []⟩) :
    reading r s = some (a, { s with ip }) := by
  rw [reading, ok]

theorem opcode_some {op : Opcode} {ws : List UInt32} (holds : Holds p.words s.ip (op.word :: ws)) :
    reading (.of (Cursor.opcode p.words)) s = some (op, { s with ip := s.ip + 1 }) :=
  reading_ok (Cursor.opcode_ok holds)

section Tokens

variable {inner : Nat → Eval World (List Value)} {operands : List Value} {place : Nat} {v : Value}

theorem token_literal (small : place < 2 ^ 32)
    (found : p.literals[place]? = some v) (holds : Holds p.words s.ip (Term.literal place).words) :
    token host p calls inner operands s = some (v :: operands, { s with ip := s.ip + 2 }) := by
  rw [Term.words] at holds
  have number : reading (Cursor.number p.words) { s with ip := s.ip + 1 } =
      some (place, { s with ip := s.ip + 2 }) := reading_ok (Cursor.number_ok small holds.tail)
  rw [token, place_bind, bind_some (opcode_some holds)]
  simp only
  rw [bind_some number, found]
  rfl

theorem token_load {a : Address} (small : a.index.toNat < 2 ^ 28)
    (found : (s.slots a.scope)[a.index.toNat]? = some v)
    (holds : Holds p.words s.ip (Term.load a).words) :
    token host p calls inner operands s = some (v :: operands, { s with ip := s.ip + 2 }) := by
  rw [Term.words] at holds
  have address : reading (.of (Cursor.address p.words)) { s with ip := s.ip + 1 } =
      some (a, { s with ip := s.ip + 2 }) := reading_ok (Cursor.address_ok small holds.tail)
  have loaded : load a { s with ip := s.ip + 2 } = some (v, { s with ip := s.ip + 2 }) := by
    rw [load]
    change ((s.slots a.scope)[a.index.toNat]?).map _ = _
    rw [found]
    rfl
  rw [token, place_bind, bind_some (opcode_some holds)]
  simp only
  rw [bind_some address, bind_some loaded]
  rfl

theorem token_binary {op : BinaryOp} {left right : Value}
    (holds : Holds p.words s.ip (Term.binary op).words) :
    token host p calls inner (right :: left :: operands) s =
      some (op.apply left right :: operands, { s with ip := s.ip + 1 }) := by
  rw [Term.words] at holds
  rw [token, place_bind, bind_some (opcode_some holds)]
  rfl

theorem token_unary {op : UnaryOp} {operand : Value}
    (holds : Holds p.words s.ip (Term.unary op).words) :
    token host p calls inner (operand :: operands) s =
      some (op.apply operand :: operands, { s with ip := s.ip + 1 }) := by
  rw [Term.words] at holds
  rw [token, place_bind, bind_some (opcode_some holds)]
  rfl

theorem token_call {fs : List (List Term)} {f : UserFunction} {values : List Value}
    (small : place < 2 ^ 32) (few : fs.length < 2 ^ 32)
    (found : p.functions[place]? = some (.user f))
    (holds : Holds p.words s.ip ((Head.call place).words fs.length))
    (evaluated : inner fs.length { s with ip := s.ip + 3 } = some (values, t))
    (called : calls f values t = some (v, u)) :
    token host p calls inner operands s = some (v :: operands, u) := by
  rw [Head.words_eq] at holds
  have fits : (Head.call place).Fits fs.length := small
  have head : reading (Cursor.instruction p.words .call s.ip) { s with ip := s.ip + 1 } =
      some (some ⟨.call, s.ip, .function place, fs.length⟩, { s with ip := s.ip + 3 }) :=
    reading_ok (Cursor.head_ok fits few holds.tail)
  have yielded : yield host p calls ⟨.call, s.ip, .function place, fs.length⟩ values t =
      some (v, u) := by
    rw [yield, call, found]
    exact called
  rw [token, place_bind, bind_some (opcode_some holds)]
  simp only [Head.opcode]
  rw [if_neg (by decide), bind_some head]
  simp only
  rw [bind_some evaluated, bind_some yielded]
  rfl

end Tokens

/-- Tokens lead from one state with its operands to another. -/
def Computes (host : Host World) (p : Program) (calls : Calls World) (nesting : Nat)
    (ts : List Term) (s t : State World) (before after : List Value) : Prop :=
  ∀ n, tokens host p calls (parts (expression host p calls nesting)) (n + ts.length) before s =
    tokens host p calls (parts (expression host p calls nesting)) n after t

section Rows

variable {nesting : Nat} {ts us : List Term} {a b c : List Value}

theorem Computes.append (first : Computes host p calls nesting ts s t a b)
    (second : Computes host p calls nesting us t u b c) :
    Computes host p calls nesting (ts ++ us) s u a c := by
  intro n
  have count : n + (ts ++ us).length = n + us.length + ts.length := by
    rw [List.length_append]
    omega
  rw [count, first, second]

theorem computes_token {x : Term}
    (ran : token host p calls (parts (expression host p calls nesting)) a s = some (b, t)) :
    Computes host p calls nesting [x] s t a b := by
  intro n
  change tokens host p calls _ (n + 1) a s = _
  rw [tokens, bind_some ran]

theorem expression_some {v : Value} {rest : List Value} {ws : List UInt32}
    (small : ts.length < 2 ^ 32) (holds : Holds p.words s.ip (.ofNat ts.length :: ws))
    (computes : Computes host p calls nesting ts { s with ip := s.ip + 1 } t [] (v :: rest)) :
    expression host p calls (nesting + 1) s = some (v, t) := by
  have number : reading (Cursor.number p.words) s = some (ts.length, { s with ip := s.ip + 1 }) :=
    reading_ok (Cursor.number_ok small holds)
  have ran : tokens host p calls (parts (expression host p calls nesting)) ts.length []
      { s with ip := s.ip + 1 } = some (v :: rest, t) := by
    have all := computes 0
    rw [Nat.zero_add] at all
    exact all
  rw [expression, bind_some number, bind_some ran]
  rfl

end Rows

/-- The variables of a function have the values of the names that stand for them. -/
def Reflects (y : Scope) (env : Env) (s : State World) : Prop :=
  ∀ x a, y.resolve? x = some a → (s.slots a.scope)[a.index.toNat]? = some (.integer (env x))

theorem Reflects.of_slots (reflects : Reflects y env s) (slots : t.slots = s.slots) :
    Reflects y env t := by
  intro x a found
  rw [slots]
  exact reflects x a found

theorem Reflects.moved (reflects : Reflects y env s) (ip : Nat) (v : Value) :
    Reflects y env { s with ip, result := v } := by
  apply reflects.of_slots
  funext scope
  cases scope <;> rfl

/-- A function of a program with what its calls may rely on: functions of the script answer as the
tree does, given enough fuel, and leave all but the latest result as it was. -/
structure Setting (p : Program) (places : String → Option Nat) (y : Scope)
    (calls : Nat → Calls World) (answers : Script.Calls) : Prop where
  small : p.Small
  few : y.parameters.length < 2 ^ 28 ∧ y.locals.length < 2 ^ 28
  called : ∀ name vs v place, answers name vs = some v → places name = some place →
    ∃ f, p.functions[place]? = some (.user f) ∧ ∃ least, ∀ fuel ≥ least, ∀ s : State World,
      ∃ result, calls fuel f (vs.map .integer) s = some (.integer v, { s with result })

section Expressions

variable {places : String → Option Nat} {y : Scope} {calls : Nat → Calls World}
variable {answers : Script.Calls} {env : Env} {v : Int32} {ts : List Term} {x : String}
  {place : Nat} {fs : List (List Term)} {vs : List Int32}

variable (host p y calls env) in
def Yields (ts : List Term) (v : Int32) : Prop :=
  ∃ least, ∀ fuel ≥ least, ∀ nesting ≥ least, ∀ (s : State World) operands, Reflects y env s →
    Holds p.words s.ip (termsWords ts) → ∃ result,
      Computes host p (calls fuel) nesting ts s
        { s with ip := s.ip + (termsWords ts).length, result } operands (.integer v :: operands)

variable (host p y calls env) in
def YieldsAll (fs : List (List Term)) (vs : List Int32) : Prop :=
  ∃ least, ∀ fuel ≥ least, ∀ nesting ≥ least, ∀ s : State World, Reflects y env s →
    Holds p.words s.ip (partsWords fs) → ∃ result,
      parts (expression host p (calls fuel) nesting) fs.length s =
        some (vs.map .integer, { s with ip := s.ip + (partsWords fs).length, result })

theorem resolve?_small {a : Address} (found : y.resolve? x = some a)
    (few : y.parameters.length < 2 ^ 28 ∧ y.locals.length < 2 ^ 28) : a.index.toNat < 2 ^ 28 := by
  rcases resolve?_cases found with ⟨i, at_, rfl⟩ | ⟨i, at_, rfl⟩
  · have inside := idxOf?_lt at_
    rw [Scope.slot, toNat_word (by omega)]
    omega
  · have inside := idxOf?_lt at_
    rw [Scope.slot, toNat_word (by omega)]
    omega

theorem yields_literal (small : p.Small) (found : p.literals[place]? = some (.integer v)) :
    Yields host p y calls env [.literal place] v := by
  refine ⟨0, fun fuel _ nesting _ s operands _ holds => ⟨s.result, ?_⟩⟩
  have inside := (Array.getElem?_eq_some_iff.mp found).1
  have size := small.literals
  rw [termsWords_single] at holds ⊢
  exact computes_token (token_literal (by omega) found holds)

theorem yields_load {a : Address} (setting : Setting p places y calls answers)
    (slot : y.resolve? x = some a) : Yields host p y calls env [.load a] (env x) := by
  refine ⟨0, fun fuel _ nesting _ s operands reflects holds => ⟨s.result, ?_⟩⟩
  rw [termsWords_single] at holds ⊢
  exact computes_token (token_load (resolve?_small slot setting.few) (reflects x a slot) holds)

theorem yields_binary (op : Script.Operator) {us : List Term} {w : Int32}
    (left : Yields host p y calls env ts v) (right : Yields host p y calls env us w) :
    Yields host p y calls env (ts ++ us ++ [.binary op.binary]) (op.apply v w) := by
  obtain ⟨least, left⟩ := left
  obtain ⟨least', right⟩ := right
  refine ⟨max least least', fun fuel enough nesting deep s operands reflects holds => ?_⟩
  rw [termsWords_append, termsWords_append, termsWords_single] at holds ⊢
  obtain ⟨both, last⟩ := holds.append
  obtain ⟨first, second⟩ := both.append
  obtain ⟨result, first⟩ := left fuel (by omega) nesting (by omega) s operands reflects first
  obtain ⟨result', second⟩ := right fuel (by omega) nesting (by omega) _ (.integer v :: operands)
    (reflects.moved (s.ip + (termsWords ts).length) result) second
  refine ⟨result', (first.append second).append (computes_token ?_)⟩
  rw [List.length_append, ← Nat.add_assoc] at last
  rw [List.length_append, List.length_append, ← Nat.add_assoc, ← Nat.add_assoc,
    ← Script.Operator.binary_apply]
  exact token_binary last

theorem yields_unary {op : UnaryOp} (operand : Yields host p y calls env ts v) :
    Yields host p y calls env (ts ++ [.unary op]) (Script.signed v op) := by
  obtain ⟨least, operand⟩ := operand
  refine ⟨least, fun fuel enough nesting deep s operands reflects holds => ?_⟩
  rw [termsWords_append, termsWords_single] at holds ⊢
  obtain ⟨first, last⟩ := holds.append
  obtain ⟨result, first⟩ := operand fuel enough nesting deep s operands reflects first
  refine ⟨result, first.append (computes_token ?_)⟩
  rw [List.length_append, ← Nat.add_assoc, ← Script.unary_apply]
  exact token_unary last

theorem yields_call {name : String} (setting : Setting p places y calls answers)
    (placed : places name = some place) (arguments : YieldsAll host p y calls env fs vs)
    (answer : answers name vs = some v) :
    Yields host p y calls env [.compound (.call place) fs] v := by
  obtain ⟨f, found, least, called⟩ := setting.called name vs v place answer placed
  obtain ⟨least', arguments⟩ := arguments
  refine ⟨max least least', fun fuel enough nesting deep s operands reflects holds => ?_⟩
  rw [termsWords_single, Term.words] at holds ⊢
  have inside := (Array.getElem?_eq_some_iff.mp found).1
  have functions := setting.small.functions
  have words := setting.small.words
  obtain ⟨head, parts⟩ := holds.append
  have count := partsWords_length_le fs
  have room := parts.le_size
  obtain ⟨result, evaluated⟩ := arguments fuel (by omega) nesting (by omega)
    { s with ip := s.ip + 3 } (reflects.moved (s.ip + 3) s.result) parts
  obtain ⟨result', called⟩ := called fuel (by omega)
    { s with ip := s.ip + 3 + (partsWords fs).length, result }
  refine ⟨result', computes_token ?_⟩
  rw [List.length_append, ← Nat.add_assoc]
  exact token_call (by omega) (by omega) found head evaluated called

theorem yieldsAll_nil : YieldsAll host p y calls env [] [] :=
  ⟨0, fun _ _ _ _ s _ _ => ⟨s.result, rfl⟩⟩

theorem yieldsAll_cons (small : p.Small)
    (first : Yields host p y calls env ts v) (rest : YieldsAll host p y calls env fs vs) :
    YieldsAll host p y calls env (ts :: fs) (v :: vs) := by
  obtain ⟨least, first⟩ := first
  obtain ⟨least', rest⟩ := rest
  refine ⟨max least least' + 1, fun fuel enough nesting deep s reflects holds => ?_⟩
  obtain ⟨inner, rfl⟩ : ∃ inner, nesting = inner + 1 := ⟨nesting - 1, by omega⟩
  rw [partsWords] at holds ⊢
  have words := small.words
  obtain ⟨terms, others⟩ := holds.tail.append
  have count := termsWords_length_le ts
  have room := terms.le_size
  obtain ⟨result, computes⟩ := first fuel (by omega) inner (by omega) { s with ip := s.ip + 1 } []
    (reflects.moved (s.ip + 1) s.result) terms
  obtain ⟨result', evaluated⟩ := rest fuel (by omega) (inner + 1) (by omega)
    { s with ip := s.ip + 1 + (termsWords ts).length, result }
    (reflects.moved (s.ip + 1 + (termsWords ts).length) result) others
  have one := expression_some (by omega) holds computes
  have finish : s.ip + (UInt32.ofNat ts.length :: (termsWords ts ++ partsWords fs)).length =
      s.ip + 1 + (termsWords ts).length + (partsWords fs).length := by
    rw [List.length_cons, List.length_append]
    omega
  refine ⟨result', ?_⟩
  change parts _ (fs.length + 1) s = _
  rw [parts, bind_some one, bind_some evaluated, finish]
  rfl

variable (host) in
mutual

theorem yields_of_codes (setting : Setting p places y calls answers) {e : Expr} {ts : List Term} :
    Codes (programNaming p places y) e ts → ∀ v, e.eval answers env = some v →
    Yields host p y calls env ts v
  | .fixed same found, v, evaluated => by
    obtain rfl := Option.some.inj ((same answers env).symm.trans evaluated)
    exact yields_literal setting.small found
  | .var slot, v, evaluated => by
    rw [Expr.eval] at evaluated
    cases evaluated
    exact yields_load setting slot
  | .call placed arguments, v, evaluated => by
    rw [Expr.eval] at evaluated
    obtain ⟨vs, values, answer⟩ := Option.bind_eq_some_iff.mp evaluated
    exact yields_call setting placed (yieldsAll_of_codes setting arguments vs values) answer
  | .binary left right, v, evaluated => by
    rw [Expr.eval] at evaluated
    obtain ⟨a, first, evaluated⟩ := Option.bind_eq_some_iff.mp evaluated
    obtain ⟨b, second, rfl⟩ := Option.map_eq_some_iff.mp evaluated
    exact yields_binary _ (yields_of_codes setting left a first)
      (yields_of_codes setting right b second)
  | .unary operand, v, evaluated => by
    rw [Expr.eval] at evaluated
    obtain ⟨a, first, rfl⟩ := Option.map_eq_some_iff.mp evaluated
    exact yields_unary (yields_of_codes setting operand a first)

theorem yieldsAll_of_codes (setting : Setting p places y calls answers) {es : List Expr}
    {fs : List (List Term)} : CodesAll (programNaming p places y) es fs → ∀ vs,
      evalAll answers env es = some vs → YieldsAll host p y calls env fs vs
  | .nil, vs, evaluated => by
    rw [evalAll] at evaluated
    cases evaluated
    exact yieldsAll_nil
  | .cons first rest, vs, evaluated => by
    rw [evalAll] at evaluated
    obtain ⟨v, value, evaluated⟩ := Option.bind_eq_some_iff.mp evaluated
    obtain ⟨ws, values, rfl⟩ := Option.map_eq_some_iff.mp evaluated
    exact yieldsAll_cons setting.small (yields_of_codes setting first v value)
      (yieldsAll_of_codes setting rest ws values)

end

end Expressions

section Statements

variable {nesting : Nat} {target : Nat} {vs : List Value} {ws : List UInt32} {v : Value}

theorem statement_of {op : Opcode} {i : Instruction} (kind : op.isStatement = true)
    (holds : Holds p.words s.ip (op.word :: ws))
    (read : reading (Cursor.instruction p.words op s.ip) { s with ip := s.ip + 1 } =
      some (some i, t))
    (evaluated : parts (expression host p calls nesting) i.expressions t = some (vs, u)) :
    statement host p calls nesting s = execute host p calls i vs u := by
  rw [statement, place_bind, bind_some (opcode_some holds), if_pos kind, bind_some read]
  simp only
  rw [bind_some evaluated]

theorem statement_plain {x : Plain} (fits : x.Fits) (few : x.parts.length < 2 ^ 32)
    (holds : Holds p.words s.ip x.front)
    (evaluated : parts (expression host p calls nesting) x.parts.length
      { s with ip := s.ip + x.front.length } = some (vs, t)) :
    statement host p calls nesting s = execute host p calls (x.instruction s.ip) vs t := by
  rw [Plain.front_eq] at holds evaluated
  rw [List.length_cons, Nat.add_comm _ 1, ← Nat.add_assoc] at evaluated
  have kind : x.opcode.isStatement = true := by cases x <;> rfl
  exact statement_of kind holds (reading_ok (Cursor.plain_ok fits few holds.tail)) evaluated

theorem jump_some (inside : target ≤ p.words.size) :
    jump p target s = some ((), { s with ip := target }) := by
  rw [jump, if_pos inside]
  rfl

theorem statement_jump (small : p.words.size < 2 ^ 32) (inside : target ≤ p.words.size)
    (holds : Holds p.words s.ip [Opcode.jump.word, .ofNat target]) :
    statement host p calls nesting s = some (none, { s with ip := target }) := by
  have read : reading (Cursor.instruction p.words .jump s.ip) { s with ip := s.ip + 1 } =
      some (some ⟨.jump, s.ip, .address target, 0⟩, { s with ip := s.ip + 2 }) :=
    reading_ok (Cursor.jump_ok (Nat.lt_of_le_of_lt inside small) holds.tail)
  rw [statement_of rfl holds read rfl, execute, bind_some (jump_some inside)]
  rfl

theorem statement_jumpIfFalse (small : p.words.size < 2 ^ 32) (inside : target ≤ p.words.size)
    (holds : Holds p.words s.ip (Opcode.jumpIfFalse.word :: .ofNat target :: ws))
    (evaluated : parts (expression host p calls nesting) 1 { s with ip := s.ip + 2 } =
      some ([v], t)) :
    statement host p calls nesting s =
      some (none, if v.isTrue then t else { t with ip := target }) := by
  have read : reading (Cursor.instruction p.words .jumpIfFalse s.ip) { s with ip := s.ip + 1 } =
      some (some ⟨.jumpIfFalse, s.ip, .address target, 1⟩, { s with ip := s.ip + 2 }) :=
    reading_ok (Cursor.jumpIfFalse_ok (Nat.lt_of_le_of_lt inside small) holds.tail)
  rw [statement_of rfl holds read evaluated, execute]
  change (if !v.isTrue then jump p target >>= fun _ => pure none else pure none : Eval World _)
    t = _
  cases v.isTrue with
  | true => rfl
  | false =>
    change (jump p target >>= fun _ => pure none : Eval World _) t = _
    rw [bind_some (jump_some inside)]
    rfl

theorem statement_final (holds : Holds p.words s.ip (Statement.final.words Target.word)) :
    statement host p calls (nesting + 1) s = some (some .zero, { s with ip := s.ip + 2 }) := by
  have number : reading (Cursor.number p.words) { s with ip := s.ip + 1 } =
      some (0, { s with ip := s.ip + 2 }) := reading_ok (Cursor.number_ok (by decide) holds.tail)
  have one : expression host p calls (nesting + 1) { s with ip := s.ip + 1 } =
      some (.zero, { s with ip := s.ip + 2 }) := by
    rw [expression, bind_some number]
    rfl
  have all : parts (expression host p calls (nesting + 1)) 1 { s with ip := s.ip + 1 } =
      some ([.zero], { s with ip := s.ip + 2 }) := by
    rw [parts, bind_some one]
    rfl
  have read : reading (Cursor.instruction p.words .returnValue s.ip) { s with ip := s.ip + 1 } =
      some (some ⟨.returnValue, s.ip, .none, 1⟩, { s with ip := s.ip + 1 }) := reading_ok rfl
  exact statement_of rfl holds read all

/-- So many statements lead from one state to another. -/
def Proceeds (host : Host World) (p : Program) (calls : Calls World) (nesting count : Nat)
    (s t : State World) : Prop :=
  ∀ n, body host p calls nesting (n + count) s = body host p calls nesting n t

theorem Proceeds.trans {m n : Nat} (first : Proceeds host p calls nesting m s t)
    (second : Proceeds host p calls nesting n t u) : Proceeds host p calls nesting (n + m) s u := by
  intro k
  rw [← Nat.add_assoc, first, second]

theorem proceeds_one (ran : statement host p calls nesting s = some (none, t)) :
    Proceeds host p calls nesting 1 s t := by
  intro n
  rw [body, bind_some ran]

theorem body_return (ran : statement host p calls nesting s = some (some v, t)) (n : Nat) :
    body host p calls nesting (n + 1) s = some (v, t) := by
  rw [body, bind_some ran]
  rfl

end Statements

def Kept (s t : State World) : Prop := t.globals = s.globals ∧ t.world = s.world ∧ t.asked = s.asked

theorem Kept.refl (s : State World) : Kept s s := ⟨rfl, rfl, rfl⟩

theorem Kept.trans (first : Kept s t) (second : Kept t u) : Kept s u :=
  ⟨second.1.trans first.1, second.2.1.trans first.2.1, second.2.2.trans first.2.2⟩

section Pieces

variable {places : String → Option Nat} {y : Scope} {calls : Nat → Calls World}
variable {answers : Script.Calls} {env env₁ env₂ : Env} {start middle finish : Nat} {x : String}
  {a : Address} {v : Int32} {ts : List Term} {target : Nat} {row : List Statement} {vs : List Int32}
  {flow : Flow} {place round : Nat} {step : Script.Step}

variable (host p y calls) in
/-- With enough fuel, statements lead from one address and its variables to another. -/
def Leads (start : Nat) (env : Env) (finish : Nat) (env' : Env) : Prop :=
  ∃ least count, ∀ fuel ≥ least, ∀ s : State World, s.ip = start → Reflects y env s →
    ∃ t, t.ip = finish ∧ Reflects y env' t ∧ Kept s t ∧
      Proceeds host p (calls fuel) fuel count s t

variable (host p y calls) in
def Returns (start : Nat) (env : Env) (v : Int32) : Prop :=
  ∃ least count, ∀ fuel ≥ least, ∀ s : State World, s.ip = start → Reflects y env s →
    ∃ t, Kept s t ∧ ∀ n, body host p (calls fuel) fuel (n + count) s = some (.integer v, t)

theorem Leads.refl : Leads host p y calls start env start env :=
  ⟨0, 0, fun _ _ s at_ reflects => ⟨s, at_, reflects, .refl s, fun _ => rfl⟩⟩

theorem Leads.trans (first : Leads host p y calls start env middle env₁)
    (second : Leads host p y calls middle env₁ finish env₂) :
    Leads host p y calls start env finish env₂ := by
  obtain ⟨least, m, first⟩ := first
  obtain ⟨least', n, second⟩ := second
  refine ⟨max least least', n + m, fun fuel enough s at_ reflects => ?_⟩
  obtain ⟨t, there, reflects, kept, proceeds⟩ := first fuel (by omega) s at_ reflects
  obtain ⟨u, ends, reflects, kept', proceeds'⟩ := second fuel (by omega) t there reflects
  exact ⟨u, ends, reflects, kept.trans kept', proceeds.trans proceeds'⟩

theorem Leads.returns {v : Int32} (first : Leads host p y calls start env middle env₁)
    (second : Returns host p y calls middle env₁ v) : Returns host p y calls start env v := by
  obtain ⟨least, m, first⟩ := first
  obtain ⟨least', n, second⟩ := second
  refine ⟨max least least', n + m, fun fuel enough s at_ reflects => ?_⟩
  obtain ⟨t, there, reflects, kept, proceeds⟩ := first fuel (by omega) s at_ reflects
  obtain ⟨u, kept', ends⟩ := second fuel (by omega) t there reflects
  refine ⟨u, kept.trans kept', fun k => ?_⟩
  rw [← Nat.add_assoc, proceeds, ends]

theorem resolve?_inj {x' : String} {a' : Address}
    (few : y.parameters.length < 2 ^ 28 ∧ y.locals.length < 2 ^ 28) (found : y.resolve? x = some a)
    (found' : y.resolve? x' = some a') (scope : a.scope = a'.scope)
    (index : a.index.toNat = a'.index.toNat) :
    x = x' := by
  have same : ∀ {names : List String} {i j : Nat}, names.length < 2 ^ 28 → names.idxOf? x = some i →
      names.idxOf? x' = some j → (UInt32.ofNat i).toNat = (UInt32.ofNat j).toNat → x = x' := by
    intro names i j short at_ at_' equal
    obtain ⟨inside, here, _⟩ := List.findIdx?_eq_some_iff_getElem.mp at_
    obtain ⟨inside', there, _⟩ := List.findIdx?_eq_some_iff_getElem.mp at_'
    rw [toNat_word (by omega), toNat_word (by omega)] at equal
    subst equal
    exact (eq_of_beq here).symm.trans (eq_of_beq there)
  rcases resolve?_cases found with ⟨i, at_, rfl⟩ | ⟨i, at_, rfl⟩
  · rcases resolve?_cases found' with ⟨j, at_', rfl⟩ | ⟨j, _, rfl⟩
    · exact same few.1 at_ at_' index
    · cases scope
  · rcases resolve?_cases found' with ⟨j, _, rfl⟩ | ⟨j, at_', rfl⟩
    · cases scope
    · exact same few.2 at_ at_' index

theorem slots_setSlot (s : State World) (a : Address) (v : Value) (scope : VariableScope) :
    (s.setSlot a v).slots scope =
      if scope = a.scope then (s.slots scope).setIfInBounds a.index.toNat v else s.slots scope := by
  obtain ⟨kind, index⟩ := a
  cases kind <;> cases scope <;> rfl

theorem Reflects.set (few : y.parameters.length < 2 ^ 28 ∧ y.locals.length < 2 ^ 28)
    (reflects : Reflects y env s) (slot : y.resolve? x = some a) :
    Reflects y (env.set x v) (s.setSlot a (.integer v)) := by
  intro x' a' found
  rw [slots_setSlot, Env.set]
  have here := reflects x a slot
  have there := reflects x' a' found
  by_cases same : x' = x
  · subst same
    obtain rfl := Option.some.inj (slot.symm.trans found)
    have inside := (Array.getElem?_eq_some_iff.mp here).1
    rw [if_pos rfl, if_pos rfl, Array.getElem?_setIfInBounds_self_of_lt inside]
  · rw [if_neg same]
    split
    · rename_i scope
      have apart : a.index.toNat ≠ a'.index.toNat := by
        intro index
        exact same (resolve?_inj few found slot scope index.symm)
      rw [Array.getElem?_setIfInBounds_ne apart, there]
    · exact there

theorem setSlot_kept (slot : y.resolve? x = some a) (v : Value) : Kept s (s.setSlot a v) := by
  rcases resolve?_cases slot with ⟨i, _, rfl⟩ | ⟨i, _, rfl⟩
  · exact ⟨rfl, rfl, rfl⟩
  · exact ⟨rfl, rfl, rfl⟩

theorem plain_executes {x : Plain} (small : p.Small) (fits : x.Fits)
    (values : YieldsAll host p y calls env x.parts vs)
    (holds : Holds p.words start ((Statement.plain x).words Target.word)) :
    ∃ least, ∀ fuel ≥ least, ∀ s : State World, s.ip = start → Reflects y env s → ∃ result,
      statement host p (calls fuel) fuel s =
        execute host p (calls fuel) (x.instruction start) (vs.map .integer)
          { s with ip := start + (Statement.plain x).size, result } := by
  obtain ⟨least, values⟩ := values
  refine ⟨least, fun fuel enough s at_ reflects => ?_⟩
  subst at_
  obtain ⟨front, parts⟩ := holds.append
  have words := small.words
  have count := partsWords_length_le x.parts
  have room := parts.le_size
  obtain ⟨result, evaluated⟩ := values fuel enough fuel enough
    { s with ip := s.ip + x.front.length } (reflects.moved (s.ip + x.front.length) s.result) parts
  have finish : s.ip + (Statement.plain x).size =
      s.ip + x.front.length + (partsWords x.parts).length := by
    rw [← Statement.words_length Target.word, Statement.words, Plain.words, List.length_append]
    omega
  rw [finish]
  exact ⟨result, statement_plain fits (by omega) front evaluated⟩

theorem leads_assign (setting : Setting p places y calls answers) (slot : y.resolve? x = some a)
    (value : Yields host p y calls env ts v)
    (holds : Holds p.words start ((Statement.plain (.assign a ts)).words Target.word)) :
    Leads host p y calls start env (start + (Statement.plain (.assign a ts)).size)
      (env.set x v) := by
  have fits : Plain.Fits (.assign a ts) := resolve?_small slot setting.few
  obtain ⟨least, executes⟩ := plain_executes setting.small fits
    (yieldsAll_cons setting.small value yieldsAll_nil) holds
  refine ⟨least, 1, fun fuel enough s at_ reflects => ?_⟩
  obtain ⟨result, ran⟩ := executes fuel enough s at_ reflects
  generalize start + (Statement.plain (.assign a ts)).size = finish at ran ⊢
  have moved := reflects.moved finish result
  have stored : store a (.integer v) { s with ip := finish, result } =
      some ((), State.setSlot { s with ip := finish, result } a (.integer v)) := by
    have loaded : load a { s with ip := finish, result } =
        some (.integer (env x), { s with ip := finish, result }) := by
      rw [load, moved x a slot]
      rfl
    rw [store, bind_some loaded]
    rfl
  refine ⟨State.setSlot { s with ip := finish, result } a (.integer v), ?_,
    moved.set setting.few slot, Kept.trans (t := { s with ip := finish, result }) ⟨rfl, rfl, rfl⟩
      (setSlot_kept slot _),
    proceeds_one ?_⟩
  · obtain ⟨scope, index⟩ := a
    cases scope <;> rfl
  · rw [ran, Plain.instruction, Plain.opcode, Plain.operand, execute]
    exact bind_some stored

theorem leads_call {name : String} {fs : List (List Term)}
    (setting : Setting p places y calls answers) (placed : places name = some place)
    (arguments : YieldsAll host p y calls env fs vs) (answer : answers name vs = some v)
    (holds : Holds p.words start ((Statement.plain (.call place fs)).words Target.word)) :
    Leads host p y calls start env (start + (Statement.plain (.call place fs)).size) env := by
  obtain ⟨f, found, least, called⟩ := setting.called name vs v place answer placed
  have inside := (Array.getElem?_eq_some_iff.mp found).1
  have functions := setting.small.functions
  have fits : Plain.Fits (.call place fs) := by
    change place < 2 ^ 32
    omega
  obtain ⟨least', executes⟩ := plain_executes setting.small fits arguments holds
  refine ⟨max least least', 1, fun fuel enough s at_ reflects => ?_⟩
  obtain ⟨result, ran⟩ := executes fuel (by omega) s at_ reflects
  obtain ⟨result', called⟩ := called fuel (by omega)
    { s with ip := start + (Statement.plain (.call place fs)).size, result }
  refine ⟨{ s with ip := start + (Statement.plain (.call place fs)).size, result := .integer v },
    rfl, reflects.moved _ _, ⟨rfl, rfl, rfl⟩, proceeds_one ?_⟩
  rw [ran, Plain.instruction, Plain.opcode, Plain.operand, execute]
  simp only [found]
  rw [bind_some called]
  rfl

theorem returns_value (small : p.Small) (value : Yields host p y calls env ts v)
    (holds : Holds p.words start ((Statement.plain (.returnValue ts)).words Target.word)) :
    Returns host p y calls start env v := by
  obtain ⟨least, executes⟩ := plain_executes small (show Plain.Fits (.returnValue ts) from trivial)
    (yieldsAll_cons small value yieldsAll_nil) holds
  refine ⟨least, 1, fun fuel enough s at_ reflects => ?_⟩
  obtain ⟨result, ran⟩ := executes fuel enough s at_ reflects
  exact ⟨{ s with ip := start + (Statement.plain (.returnValue ts)).size, result }, ⟨rfl, rfl, rfl⟩,
    body_return ran⟩

theorem returns_zero (holds : Holds p.words start (Statement.final.words Target.word)) :
    Returns host p y calls start env 0 := by
  refine ⟨1, 1, fun fuel enough s at_ reflects => ?_⟩
  subst at_
  obtain ⟨inner, rfl⟩ : ∃ inner, fuel = inner + 1 := ⟨fuel - 1, by omega⟩
  exact ⟨{ s with ip := s.ip + 2 }, ⟨rfl, rfl, rfl⟩, body_return (statement_final holds)⟩

theorem leads_jump (small : p.Small) (inside : target ≤ p.words.size)
    (holds : Holds p.words start ((Statement.jump (.ip target)).words Target.word)) :
    Leads host p y calls start env target env := by
  have words := small.words
  refine ⟨0, 1, fun fuel enough s at_ reflects => ?_⟩
  subst at_
  exact ⟨{ s with ip := target }, rfl, reflects.moved target s.result, ⟨rfl, rfl, rfl⟩,
    proceeds_one (statement_jump (by omega) inside holds)⟩

theorem leads_test (small : p.Small) (inside : target ≤ p.words.size)
    (value : Yields host p y calls env ts v)
    (holds : Holds p.words start ((Statement.jumpIfFalse (.ip target) ts).words Target.word)) :
    Leads host p y calls start env (if v ≠ 0 then start + Script.testSize ts else target) env := by
  have words := small.words
  obtain ⟨least, values⟩ := yieldsAll_cons small value yieldsAll_nil
  refine ⟨least, 1, fun fuel enough s at_ reflects => ?_⟩
  subst at_
  obtain ⟨result, evaluated⟩ := values fuel enough fuel enough { s with ip := s.ip + 2 }
    (reflects.moved (s.ip + 2) s.result) holds.tail.tail
  have next : s.ip + Script.testSize ts = s.ip + 2 + (partsWords [ts]).length := by
    rw [Script.testSize, ← Statement.words_length Target.word, Statement.words, List.length_cons,
      List.length_cons]
    omega
  have ran := statement_jumpIfFalse (by omega) inside holds evaluated
  by_cases zero : v = 0
  · rw [if_neg (by simp [zero, Value.isTrue, Atom.isTrue])] at ran
    rw [if_neg (by simpa using zero)]
    exact ⟨_, rfl, reflects.moved target result, ⟨rfl, rfl, rfl⟩, proceeds_one ran⟩
  · rw [if_pos (by simpa [Value.isTrue, Atom.isTrue] using zero)] at ran
    rw [if_pos zero, next]
    exact ⟨_, rfl, reflects.moved _ result, ⟨rfl, rfl, rfl⟩, proceeds_one ran⟩

variable {exits : Exits}

variable (host p y calls) in
/-- A piece of code ends as its tree does: it goes on behind its last word, leaves the loop around
it, starts the next round of that loop, or returns. -/
def Ends (exits : Exits) (start : Nat) (env : Env) (finish : Nat) (env' : Env) : Flow → Prop
  | .onward => Leads host p y calls start env finish env'
  | .broken => ∃ target, exits.map (·.1) = some (.ip target) ∧
      Leads host p y calls start env target env'
  | .continued => ∃ target, exits.map (·.2) = some (.ip target) ∧
      Leads host p y calls start env target env'
  | .returned v => Returns host p y calls start env v

variable (host p y calls) in
/-- A piece of code does what its tree does. -/
def Runs (exits : Exits) (start finish : Nat) (exec : Env → Option (Env × Flow)) : Prop :=
  ∀ env env' flow, exec env = some (env', flow) →
    Ends host p y calls exits start env finish env' flow

theorem Leads.ends (first : Leads host p y calls start env middle env₁)
    (second : Ends host p y calls exits middle env₁ finish env₂ flow) :
    Ends host p y calls exits start env finish env₂ flow := by
  cases flow with
  | onward => exact first.trans second
  | broken =>
    obtain ⟨target, leaves, second⟩ := second
    exact ⟨target, leaves, first.trans second⟩
  | continued =>
    obtain ⟨target, again, second⟩ := second
    exact ⟨target, again, first.trans second⟩
  | returned v => exact first.returns second

theorem Ends.of_ne (ends : Ends host p y calls exits start env middle env₁ flow)
    (other : flow ≠ .onward) (finish : Nat) :
    Ends host p y calls exits start env finish env₁ flow := by
  cases flow with
  | onward => exact absurd rfl other
  | broken | continued | returned => exact ends

theorem runs_nil (rounds : Nat) :
    Runs host p y calls exits start start (execAll answers rounds []) := by
  intro env env' flow ran
  rw [execAll] at ran
  cases ran
  exact Leads.refl

theorem runs_cons {st : Stmt} {rest : List Stmt} {rounds : Nat}
    (first : Runs host p y calls exits start middle (st.exec answers rounds))
    (second : Runs host p y calls exits middle finish (execAll answers rounds rest)) :
    Runs host p y calls exits start finish (execAll answers rounds (st :: rest)) := by
  intro env env' flow ran
  rw [execAll] at ran
  obtain ⟨⟨env₁, flow₁⟩, one, ran⟩ := Option.bind_eq_some_iff.mp ran
  have ends := first env env₁ flow₁ one
  cases flow₁ with
  | onward => exact Leads.ends ends (second env₁ env' flow ran)
  | _ =>
    cases ran
    exact ends.of_ne (by simp) finish

/-- The rounds of a loop, by induction on how many there may be. A round ends behind the body or
where `continue` goes, and both lead to the next test. -/
theorem ends_loop {test : Env → Option Bool} {body : Env → Option (Env × Flow)} {next : Env → Env}
    {inner back again leave : Nat} {outer : Exits}
    (tested : ∀ env goes, test env = some goes →
      Leads host p y calls round env (if goes then inner else leave) env)
    (bodied : Runs host p y calls (some (.ip leave, .ip again)) inner back body)
    (onward : ∀ env, Leads host p y calls back env round (next env))
    (continued : ∀ env, Leads host p y calls again env round (next env)) (rounds : Nat) :
    Runs host p y calls outer round leave (Script.loop test body next rounds) := by
  induction rounds with
  | zero =>
    intro env env' flow ran
    cases ran
  | succ n ih =>
    intro env env' flow ran
    rw [Script.loop_succ] at ran
    obtain ⟨goes, checked, ran⟩ := Option.bind_eq_some_iff.mp ran
    have first := tested env goes checked
    cases goes with
    | false =>
      rw [if_neg Bool.false_ne_true] at first ran
      cases ran
      exact first
    | true =>
      rw [if_pos rfl] at first ran
      obtain ⟨⟨env₁, flow₁⟩, one, ran⟩ := Option.bind_eq_some_iff.mp ran
      have ends := bodied env env₁ flow₁ one
      cases flow₁ with
      | onward => exact first.ends (Leads.ends ends ((onward env₁).ends (ih _ _ _ ran)))
      | broken =>
        cases ran
        obtain ⟨target, leaves, ends⟩ := ends
        cases leaves
        exact first.trans ends
      | continued =>
        obtain ⟨target, again, ends⟩ := ends
        cases again
        exact first.ends (ends.ends ((continued env₁).ends (ih _ _ _ ran)))
      | returned v =>
        cases ran
        exact first.returns ends

theorem truth_ne_zero {q : Prop} [Decidable q] : Script.truth q ≠ 0 ↔ q := by
  rw [Script.truth]
  split
  · rename_i holds
    exact iff_of_true (by decide) holds
  · rename_i fails
    exact iff_of_false (by decide) fails

theorem Step.relation_iff (step : Script.Step) (counter limit : Int32) :
    Script.Operator.apply counter limit (.relation step.relation) ≠ 0 ↔
      step.reaches counter limit = true := by
  rw [Script.Step.relation, Script.Step.reaches]
  split
  · rw [Script.Operator.apply, truth_ne_zero, decide_eq_true_iff]
  · rw [Script.Operator.apply, truth_ne_zero, decide_eq_true_iff]

def Closed (p : Program) (exits : Exits) : Prop :=
  ∀ leave again, exits = some (leave, again) →
    (∃ a, leave = .ip a ∧ a ≤ p.words.size) ∧ ∃ b, again = .ip b ∧ b ≤ p.words.size

theorem closed_none : Closed p none := by
  intro leave again none_
  cases none_

theorem closed_some {a b : Nat} (leave : a ≤ p.words.size) (again : b ≤ p.words.size) :
    Closed p (some (.ip a, .ip b)) := by
  intro _ _ same
  cases same
  exact ⟨⟨a, rfl, leave⟩, ⟨b, rfl, again⟩⟩

theorem holds_cons {x : Statement} (holds : Holds p.words start (rowWords Target.word (x :: row))) :
    Holds p.words start (x.words Target.word) ∧
      Holds p.words (start + x.size) (rowWords Target.word row) := by
  rw [rowWords_cons] at holds
  rw [← x.words_length Target.word]
  exact holds.append

theorem holds_append {more : List Statement}
    (holds : Holds p.words start (rowWords Target.word (row ++ more))) :
    Holds p.words start (rowWords Target.word row) ∧
      Holds p.words (start + rowSize row) (rowWords Target.word more) := by
  rw [rowWords_append] at holds
  rw [← rowWords_length Target.word]
  exact holds.append

theorem holds_end (holds : Holds p.words start (rowWords Target.word row)) :
    start + rowSize row ≤ p.words.size := by
  rw [← rowWords_length Target.word]
  exact holds.le_size

theorem jumpIfFalse_size (target : Target) (ts : List Term) :
    (Statement.jumpIfFalse target ts).size = Script.testSize ts := rfl

theorem leads_limit {us : List Term} {w : Int32}
    (setting : Setting p places y calls answers) (slot : y.resolve? x = some a)
    (limit : Yields host p y calls env us w) (inside : target ≤ p.words.size)
    (holds : Holds p.words start
      ((Statement.jumpIfFalse (.ip target) (limitTest a us step.relation)).words Target.word)) :
    Leads host p y calls start env (if step.reaches (env x) w = true then
      start + Script.testSize (limitTest a us step.relation) else target) env := by
  have value : Yields host p y calls env (limitTest a us step.relation)
      (Script.Operator.apply (env x) w (.relation step.relation)) :=
    yields_binary (.relation step.relation) (yields_load setting slot) limit
  have leads := leads_test setting.small inside value holds
  simp only [Step.relation_iff] at leads
  exact leads

variable (host) in
theorem leads_round (setting : Setting p places y calls answers)
    (slot : y.resolve? x = some a) (found : p.literals[place]? = some (.integer step.value))
    (inside : round ≤ p.words.size) (holds : Holds p.words start
      (rowWords Target.word [.plain (increment a place), .jump (.ip round)])) (env : Env) :
    Leads host p y calls start env round (env.set x (env x + step.value)) := by
  obtain ⟨count, back⟩ := holds_cons holds
  have value : Yields host p y calls env
      [.load a, .literal place, .binary (.arithmetic .add)] (env x + step.value) :=
    yields_binary (.arithmetic .add) (yields_load setting slot)
      (yields_literal setting.small found)
  exact (leads_assign setting slot value count).trans
    (leads_jump setting.small inside (holds_cons back).1)

variable (host) in
mutual

/-- The code of a statement does what the statement does. -/
theorem runs_of_lies (setting : Setting p places y calls answers) (rounds : Nat) {exits : Exits}
    {start : Nat} {st : Stmt} {row : List Statement} :
    Lies (programNaming p places y) exits start st row → Closed p exits →
      Holds p.words start (rowWords Target.word row) →
      Runs host p y calls exits start (start + rowSize row) (st.exec answers rounds)
  | .assign slot value, _, holds => by
    intro env env' flow ran
    rw [Stmt.exec] at ran
    obtain ⟨v, evaluated, same⟩ := Option.map_eq_some_iff.mp ran
    cases same
    exact leads_assign setting slot (yields_of_codes host setting value v evaluated)
      (holds_cons holds).1
  | .call placed arguments, _, holds => by
    intro env env' flow ran
    rw [Stmt.exec] at ran
    obtain ⟨vs, evaluated, ran⟩ := Option.bind_eq_some_iff.mp ran
    obtain ⟨v, answer, same⟩ := Option.map_eq_some_iff.mp ran
    cases same
    exact leads_call setting placed (yieldsAll_of_codes host setting arguments vs evaluated) answer
      (holds_cons holds).1
  | .if_ test yes at_, closed, holds => by
    intro env env' flow ran
    rw [Stmt.exec] at ran
    obtain ⟨v, evaluated, ran⟩ := Option.bind_eq_some_iff.mp ran
    obtain ⟨jump, block⟩ := holds_cons holds
    have behind := holds_end block
    rw [jumpIfFalse_size] at block behind
    rw [rowSize_cons, jumpIfFalse_size, ← Nat.add_assoc, ← at_]
    have branch := leads_test setting.small (at_ ▸ behind)
      (yields_of_codes host setting test v evaluated) jump
    by_cases zero : v = 0
    · simp only [zero, ne_eq, not_true_eq_false, ↓reduceIte] at branch ran
      cases ran
      exact branch
    · simp only [zero, ne_eq, not_false_eq_true, ↓reduceIte] at branch ran
      rw [at_]
      exact branch.ends (runs_of_liesAll setting rounds yes closed block env env' flow ran)
  | .ifElse test yes no at_ at_', closed, holds => by
    intro env env' flow ran
    rw [Stmt.exec] at ran
    obtain ⟨v, evaluated, ran⟩ := Option.bind_eq_some_iff.mp ran
    obtain ⟨jump, blocks⟩ := holds_cons holds
    rw [jumpIfFalse_size] at blocks
    obtain ⟨block, blocks⟩ := holds_append blocks
    obtain ⟨leave, other⟩ := holds_cons blocks
    have size : ∀ target, (Statement.jump target).size = 2 := fun _ => rfl
    have behind := holds_end other
    rw [size] at other behind
    rw [rowSize_cons, rowSize_append, rowSize_cons, jumpIfFalse_size, size, ← Nat.add_assoc,
      ← Nat.add_assoc, ← Nat.add_assoc, ← at_, ← at_']
    rw [← at_] at other behind
    have branch := leads_test setting.small (by omega)
      (yields_of_codes host setting test v evaluated) jump
    by_cases zero : v = 0
    · simp only [zero, ne_eq, not_true_eq_false, ↓reduceIte] at branch ran
      rw [at_']
      exact branch.ends (runs_of_liesAll setting rounds no closed other env env' flow ran)
    · simp only [zero, ne_eq, not_false_eq_true, ↓reduceIte] at branch ran
      have ends := runs_of_liesAll setting rounds yes closed block env env' flow ran
      cases flow with
      | onward =>
        exact (branch.trans ends).trans (leads_jump setting.small (by omega) leave)
      | _ => exact branch.ends (ends.of_ne (by simp) _)
  | .while_ test body at_, _, holds => by
    intro env env' flow ran
    rw [Stmt.exec] at ran
    obtain ⟨jump, blocks⟩ := holds_cons holds
    have behind := holds_end blocks
    rw [jumpIfFalse_size] at blocks behind
    obtain ⟨block, back⟩ := holds_append blocks
    have size : ∀ target, rowSize [.jump target] = 2 := fun _ => rfl
    rw [rowSize_append, size, ← Nat.add_assoc, ← at_] at behind
    rw [rowSize_cons, rowSize_append, jumpIfFalse_size,
      size, ← Nat.add_assoc, ← Nat.add_assoc, ← at_]
    refine ends_loop ?_ (runs_of_liesAll setting rounds body (closed_some behind (by omega)) block)
      (fun env => leads_jump setting.small (by omega) (holds_cons back).1) (fun env => .refl) rounds
      env env' flow ran
    intro env goes tested
    obtain ⟨v, evaluated, rfl⟩ := Option.map_eq_some_iff.mp tested
    have branch := leads_test setting.small behind (yields_of_codes host setting test v evaluated)
      jump
    simp only [bne_iff_ne]
    exact branch
  | .for_ slot first limit step body at_ at_' at_'', _, holds => by
    intro env env' flow ran
    rw [Stmt.exec] at ran
    obtain ⟨v, evaluated, ran⟩ := Option.bind_eq_some_iff.mp ran
    obtain ⟨assign, blocks⟩ := holds_cons holds
    rw [← at_] at blocks
    obtain ⟨jump, blocks⟩ := holds_cons blocks
    have behind := holds_end blocks
    rw [jumpIfFalse_size] at blocks behind
    obtain ⟨block, last⟩ := holds_append blocks
    rw [← at_'] at last
    have size : ∀ target, rowSize [.jump target] = 2 := fun _ => rfl
    rw [rowSize_append, rowSize_cons,
      size, ← Nat.add_assoc, ← Nat.add_assoc, ← at_', ← at_''] at behind
    rw [rowSize_cons, rowSize_cons, rowSize_append, rowSize_cons, jumpIfFalse_size, size,
      ← Nat.add_assoc, ← Nat.add_assoc, ← Nat.add_assoc, ← Nat.add_assoc, ← at_, ← at_', ← at_'']
    have begins := leads_assign setting slot (yields_of_codes host setting first v evaluated) assign
    rw [← at_] at begins
    have again := leads_round host setting slot step (by omega) last
    have inner := runs_of_liesAll setting rounds body (closed_some behind (by omega)) block
    rw [← at_'] at inner
    refine begins.ends (ends_loop ?_ inner again again rounds _ env' flow ran)
    intro env goes tested
    obtain ⟨w, evaluated, rfl⟩ := Option.map_eq_some_iff.mp tested
    exact leads_limit setting slot (yields_of_codes host setting limit w evaluated) behind jump
  | .break_, closed, holds => by
    intro env env' flow ran
    rw [Stmt.exec] at ran
    cases ran
    obtain ⟨⟨target, rfl, inside⟩, _⟩ := closed _ _ rfl
    exact ⟨target, rfl, leads_jump setting.small inside (holds_cons holds).1⟩
  | .continue_, closed, holds => by
    intro env env' flow ran
    rw [Stmt.exec] at ran
    cases ran
    obtain ⟨_, ⟨target, rfl, inside⟩⟩ := closed _ _ rfl
    exact ⟨target, rfl, leads_jump setting.small inside (holds_cons holds).1⟩
  | .return_, _, holds => by
    intro env env' flow ran
    rw [Stmt.exec] at ran
    cases ran
    exact returns_zero (holds_cons holds).1
  | .returnValue value, _, holds => by
    intro env env' flow ran
    rw [Stmt.exec] at ran
    obtain ⟨v, evaluated, same⟩ := Option.map_eq_some_iff.mp ran
    cases same
    exact returns_value setting.small (yields_of_codes host setting value v evaluated)
      (holds_cons holds).1

theorem runs_of_liesAll (setting : Setting p places y calls answers) (rounds : Nat) {exits : Exits}
    {start : Nat} {ss : List Stmt} {row : List Statement} :
    LiesAll (programNaming p places y) exits start ss row → Closed p exits →
      Holds p.words start (rowWords Target.word row) →
      Runs host p y calls exits start (start + rowSize row) (execAll answers rounds ss)
  | .nil, _, _ => runs_nil rounds
  | .cons first rest, closed, holds => by
    obtain ⟨one, more⟩ := holds_append holds
    rw [rowSize_append, ← Nat.add_assoc]
    exact runs_cons (runs_of_lies setting rounds first closed one)
      (runs_of_liesAll setting rounds rest closed more)

end

end Pieces

end Scriptlet.Recursion
