import LoxLang.Tree.Read

/-!
# What relates all readings

All readings are put together from a few steps: they look at the cursor, go on, record an error,
stop, go on with a result, record what stopped a declaration, and try an expression. A relation of
readings that the steps have and that is kept where they are put together (`Reading.Congruence`)
relates every reading to the same one on more fuel (`Reading.Congruence.relatesOn`), by one
induction on the fuel. So what more fuel changes, and where a reading can get, is seen from the
steps alone.
-/

namespace LoxLang

namespace Reading

variable {α β : Type}

/-- A reading whose error is recorded and skipped over. -/
def recovered (r : Reading α) : Reading (Option α) := fun c =>
  match r c with
  | .ok a c => .ok (some a) c
  | .error (.error e) c => .ok none (c.resume e)
  | .error .outOfFuel c => .error .outOfFuel c

/-- A reading that counts only if it reads everything without an error. Where it does not, the
cursor does not move. -/
def attempted (r : Reading α) : Reading (Option α) := fun c =>
  match r c with
  | .ok a c' =>
    if c'.rest.isEmpty ∧ c'.errors.length = c.errors.length then .ok (some a) c' else .ok none c
  | .error (.error _) _ => .ok none c
  | .error .outOfFuel c' => .error .outOfFuel c'

theorem declaration_eq (n : Nat) : declaration (n + 1) = recovered (declared n) := by
  funext c
  unfold declaration recovered
  rcases declared n c with _ | ⟨_ | _, _⟩ <;> rfl

theorem trailing?_eq (n : Nat) : trailing? n = attempted (assignment n) := by
  funext c
  unfold trailing? attempted
  rcases assignment n c with _ | ⟨_ | _, _⟩ <;> rfl

/-- A relation of readings that the steps of reading have and that is kept where readings are put
together. The second reading has at least the fuel of the first. -/
structure Congruence (R : {α : Type} → Reading α → Reading α → Prop) : Prop where
  pure : ∀ {α : Type} (a : α), R (pure a) (pure a)
  throw : ∀ {α : Type} (e : GrammarError), R (throw (.error e) : Reading α) (throw (.error e))
  outOfFuel : ∀ {α : Type} (r : Reading α), R outOfFuel r
  get : ∀ {β : Type} {k k' : Cursor → Reading β}, (∀ c, R (k c) (k' c)) →
    R (MonadState.get >>= k) (MonadState.get >>= k')
  advance : R advance advance
  note : ∀ cause, R (note cause) (note cause)
  bind : ∀ {α β : Type} {r r' : Reading α} {k k' : α → Reading β}, R r r' →
    (∀ a, R (k a) (k' a)) → R (r >>= k) (r' >>= k')
  recovered : ∀ {α : Type} {r r' : Reading α}, R r r' → R (recovered r) (recovered r')
  attempted : ∀ {α : Type} {r r' : Reading α}, R r r' → R (attempted r) (attempted r')

namespace Congruence

variable {R : {α : Type} → Reading α → Reading α → Prop} (h : Congruence R)
  {r r' : Reading α}

include h

/-! ## Composite steps -/

theorem peek {k k' : Token → Reading β} (hk : ∀ t, R (k t) (k' t)) :
    R (Reading.peek >>= k) (Reading.peek >>= k') :=
  h.get fun c => hk c.peek

theorem fail (cause : GrammarCause) : R (Reading.fail cause : Reading α) (Reading.fail cause) :=
  h.peek fun _ => h.throw _

theorem expect (kind : Kind) (cause : GrammarCause) :
    R (Reading.expect kind cause) (Reading.expect kind cause) := by
  refine h.peek fun t => ?_
  split
  · exact h.bind h.advance fun _ => h.pure t
  · exact h.fail cause

theorem accept (kind : Kind) : R (Reading.accept kind) (Reading.accept kind) := by
  refine h.peek fun t => ?_
  split
  · exact h.bind h.advance fun _ => h.pure true
  · exact h.pure false

/-- A reading with its result wrapped. -/
theorem map (f : α → β) (hr : R r r') : R (f <$> r) (f <$> r') := by
  rw [map_eq_pure_bind, map_eq_pure_bind]
  exact h.bind hr fun a => h.pure _

theorem unlessAt (kind : Kind) (hr : R r r') :
    R (Reading.unlessAt kind r) (Reading.unlessAt kind r') := by
  refine h.peek fun t => ?_
  split
  · exact h.pure none
  · exact h.map some hr

/-- Something that is only there behind a token of a kind. -/
theorem optional (kind : Kind) {k k' : Option α → Reading β} (hr : R r r')
    (hk : ∀ o, R (k o) (k' o)) :
    R (do
        let o ← if ← Reading.accept kind then some <$> r else Pure.pure none
        k o)
      (do
        let o ← if ← Reading.accept kind then some <$> r' else Pure.pure none
        k' o) := by
  refine h.bind (h.accept kind) fun b => ?_
  cases b with
  | true => exact h.bind (h.map some hr) hk
  | false => exact h.bind (h.pure none) hk

end Congruence

/-- Everything that is read on the fuel `n` is related to what is read on the fuel `m`. -/
structure RelatesOn (R : {α : Type} → Reading α → Reading α → Prop) (n m : Nat) : Prop where
  assignment : R (assignment n) (assignment m)
  operators : ∀ l, R (operators n l) (operators m l)
  operatorsAfter : ∀ l left, R (operatorsAfter n l left) (operatorsAfter m l left)
  unary : R (unary n) (unary m)
  suffixes : ∀ e, R (suffixes n e) (suffixes m e)
  arguments : ∀ count, R (arguments n count) (arguments m count)
  primary : R (primary n) (primary m)
  routine : ∀ role, R (routine n role) (routine m role)
  block : R (block n) (block m)
  declaration : R (declaration n) (declaration m)
  declared : R (declared n) (declared m)
  classDeclared : R (classDeclared n) (classDeclared m)
  methods : R (methods n) (methods m)
  named : ∀ role, R (named n role) (named m role)
  variableDeclared : R (variableDeclared n) (variableDeclared m)
  expressionStatement : R (expressionStatement n) (expressionStatement m)
  forStatement : R (forStatement n) (forStatement m)
  statement : R (statement n) (statement m)

namespace RelatesOn

variable {R : {α : Type} → Reading α → Reading α → Prop} {n m : Nat}

/-! ## Expressions -/

theorem assignment_succ (h : Congruence R) (ih : RelatesOn R n m) :
    R (Reading.assignment (n + 1)) (Reading.assignment (m + 1)) := by
  refine h.bind (ih.operators 0) fun e => h.peek fun equals => ?_
  split
  · refine h.bind h.advance fun _ => h.bind ih.assignment fun value => ?_
    cases e with
    | ref s => exact h.pure _
    | get object name => exact h.pure _
    | _ => exact h.throw _
  · exact h.pure e

theorem operators_succ (h : Congruence R) (ih : RelatesOn R n m) (l : Nat) :
    R (Reading.operators (n + 1) l) (Reading.operators (m + 1) l) :=
  h.bind ih.unary fun left => ih.operatorsAfter l left

theorem operatorsAfter_succ (h : Congruence R) (ih : RelatesOn R n m) (l : Nat)
    (left : Expr Unit) :
    R (Reading.operatorsAfter (n + 1) l left) (Reading.operatorsAfter (m + 1) l left) := by
  refine h.peek fun op => ?_
  split
  · exact h.pure left
  · split
    · refine h.bind h.advance fun _ => h.bind (ih.operators _) fun right => ?_
      exact ih.operatorsAfter l _
    · exact h.pure left

theorem unary_succ (h : Congruence R) (ih : RelatesOn R n m) :
    R (Reading.unary (n + 1)) (Reading.unary (m + 1)) := by
  refine h.peek fun op => ?_
  split
  · exact h.bind h.advance fun _ => h.bind ih.unary fun e => h.pure _
  · exact h.bind h.advance fun _ => h.bind ih.unary fun e => h.pure _
  · exact h.bind ih.primary fun e => ih.suffixes e

theorem suffixes_succ (h : Congruence R) (ih : RelatesOn R n m) (e : Expr Unit) :
    R (Reading.suffixes (n + 1) e) (Reading.suffixes (m + 1) e) := by
  refine h.peek fun t => ?_
  split
  · refine h.bind h.advance fun _ => h.bind (h.unlessAt _ (ih.arguments 0)) fun args => ?_
    exact h.bind (h.expect _ _) fun paren => ih.suffixes _
  · exact h.bind h.advance fun _ => h.bind (h.expect _ _) fun name => ih.suffixes _
  · exact h.pure e

theorem arguments_succ (h : Congruence R) (ih : RelatesOn R n m) (count : Nat) :
    R (Reading.arguments (n + 1) count) (Reading.arguments (m + 1) count) := by
  have hrest : R
      (do
        let e ← Reading.assignment n
        if ← accept .comma then return e :: (← Reading.arguments n (count + 1)) else return [e])
      (do
        let e ← Reading.assignment m
        if ← accept .comma then return e :: (← Reading.arguments m (count + 1))
        else return [e]) := by
    refine h.bind ih.assignment fun e => h.bind (h.accept _) fun comma => ?_
    cases comma with
    | true => exact h.bind (ih.arguments _) fun es => h.pure _
    | false => exact h.pure _
  rw [Reading.arguments, Reading.arguments]
  split
  · exact h.bind (h.note _) fun _ => hrest
  · exact hrest

theorem primary_succ (h : Congruence R) (ih : RelatesOn R n m) :
    R (Reading.primary (n + 1)) (Reading.primary (m + 1)) := by
  refine h.peek fun t => ?_
  split
  case h_6 =>
    refine h.bind h.advance fun _ => h.bind (h.expect _ _) fun _ => ?_
    exact h.bind (h.expect _ _) fun method => h.pure _
  case h_9 =>
    refine h.bind h.advance fun _ => h.bind (h.expect _ _) fun _ => ?_
    exact h.bind (ih.routine _) fun r => h.pure _
  case h_10 =>
    refine h.bind h.advance fun _ => h.bind ih.assignment fun e => ?_
    exact h.bind (h.expect _ _) fun _ => h.pure _
  case h_11 => exact h.fail _
  all_goals exact h.bind h.advance fun _ => h.pure _

/-! ## Bodies -/

theorem parameters (h : Congruence R) (hnm : n ≤ m) (count : Nat) :
    R (Reading.parameters n count) (Reading.parameters m count) := by
  induction n generalizing m count with
  | zero => exact h.outOfFuel _
  | succ n ih =>
    obtain ⟨m, rfl⟩ := Nat.exists_eq_succ_of_ne_zero (Nat.ne_zero_of_lt hnm)
    have hrest : R
        (do
          let p ← Reading.expect .identifier .parameterName
          if ← accept .comma then return p :: (← Reading.parameters n (count + 1)) else return [p])
        (do
          let p ← Reading.expect .identifier .parameterName
          if ← accept .comma then return p :: (← Reading.parameters m (count + 1))
          else return [p]) := by
      refine h.bind (h.expect _ _) fun p => h.bind (h.accept _) fun comma => ?_
      cases comma with
      | true => exact h.bind (ih (Nat.le_of_succ_le_succ hnm) _) fun ps => h.pure _
      | false => exact h.pure _
    rw [Reading.parameters, Reading.parameters]
    split
    · exact h.bind (h.note _) fun _ => hrest
    · exact hrest

theorem routine_succ (h : Congruence R) (hnm : n ≤ m) (ih : RelatesOn R n m) (role : Role) :
    R (Reading.routine (n + 1) role) (Reading.routine (m + 1) role) := by
  refine h.bind (h.unlessAt _ (parameters h hnm 0)) fun params => ?_
  refine h.bind (h.expect _ _) fun _ => h.bind (h.expect _ _) fun _ => ?_
  exact h.bind ih.block fun body => h.pure _

theorem block_succ (h : Congruence R) (ih : RelatesOn R n m) :
    R (Reading.block (n + 1)) (Reading.block (m + 1)) := by
  refine h.peek fun t => ?_
  split
  · exact h.bind h.advance fun _ => h.pure []
  · exact h.fail _
  · exact h.bind ih.declaration fun s => h.bind ih.block fun ss => h.pure _

theorem named_succ (h : Congruence R) (ih : RelatesOn R n m) (role : Role) :
    R (Reading.named (n + 1) role) (Reading.named (m + 1) role) := by
  refine h.bind (h.expect _ _) fun name => h.bind (h.expect _ _) fun _ => ?_
  exact h.bind (ih.routine role) fun r => h.pure _

/-! ## Declarations -/

theorem declaration_succ (h : Congruence R) (ih : RelatesOn R n m) :
    R (Reading.declaration (n + 1)) (Reading.declaration (m + 1)) := by
  rw [declaration_eq, declaration_eq]
  exact h.recovered ih.declared

theorem declared_succ (h : Congruence R) (ih : RelatesOn R n m) :
    R (Reading.declared (n + 1)) (Reading.declared (m + 1)) := by
  refine h.peek fun t => ?_
  split
  · exact h.bind h.advance fun _ => ih.classDeclared
  · refine h.get fun c => ?_
    split
    · exact h.bind h.advance fun _ => h.bind (ih.named _) fun r => h.pure _
    · exact ih.statement
  · exact h.bind h.advance fun _ => ih.variableDeclared
  · exact ih.statement

theorem classDeclared_succ (h : Congruence R) (ih : RelatesOn R n m) :
    R (Reading.classDeclared (n + 1)) (Reading.classDeclared (m + 1)) := by
  refine h.bind (h.expect _ _) fun name => ?_
  refine h.optional _ (h.expect _ _) fun superclass => ?_
  refine h.bind (h.expect _ _) fun _ => h.bind ih.methods fun ms => ?_
  exact h.bind (h.expect _ _) fun _ => h.pure _

theorem methods_succ (h : Congruence R) (ih : RelatesOn R n m) :
    R (Reading.methods (n + 1)) (Reading.methods (m + 1)) := by
  refine h.peek fun t => ?_
  split
  · exact h.pure []
  · exact h.pure []
  · exact h.bind (ih.named _) fun r => h.bind ih.methods fun ms => h.pure _

theorem variableDeclared_succ (h : Congruence R) (ih : RelatesOn R n m) :
    R (Reading.variableDeclared (n + 1)) (Reading.variableDeclared (m + 1)) := by
  refine h.bind (h.expect _ _) fun name => h.optional _ ih.assignment fun _ => ?_
  exact h.bind (h.expect _ _) fun _ => h.pure _

/-! ## Statements -/

theorem expressionStatement_succ (h : Congruence R) (ih : RelatesOn R n m) :
    R (Reading.expressionStatement (n + 1)) (Reading.expressionStatement (m + 1)) :=
  h.bind ih.assignment fun _ => h.bind (h.expect _ _) fun _ => h.pure _

theorem forStatement_succ (h : Congruence R) (ih : RelatesOn R n m) :
    R (Reading.forStatement (n + 1)) (Reading.forStatement (m + 1)) := by
  have hrest : ∀ init : Option (Stmt Unit), R
      (do
        let test ← Reading.unlessAt .semicolon (Reading.assignment n)
        let _ ← Reading.expect .semicolon .forCondition
        let step ← Reading.unlessAt .rightParen (Reading.assignment n)
        let _ ← Reading.expect .rightParen .forEnd
        let body ← Reading.statement n
        return Stmt.forLoop init test step body)
      (do
        let test ← Reading.unlessAt .semicolon (Reading.assignment m)
        let _ ← Reading.expect .semicolon .forCondition
        let step ← Reading.unlessAt .rightParen (Reading.assignment m)
        let _ ← Reading.expect .rightParen .forEnd
        let body ← Reading.statement m
        return Stmt.forLoop init test step body) := by
    intro init
    refine h.bind (h.unlessAt _ ih.assignment) fun test => h.bind (h.expect _ _) fun _ => ?_
    refine h.bind (h.unlessAt _ ih.assignment) fun step => h.bind (h.expect _ _) fun _ => ?_
    exact h.bind ih.statement fun body => h.pure _
  refine h.bind (h.expect _ _) fun _ => h.peek fun t => ?_
  split
  · exact h.bind h.advance fun _ => h.bind (h.pure _) hrest
  · exact h.bind h.advance fun _ => h.bind (h.map some ih.variableDeclared) hrest
  · exact h.bind (h.map some ih.expressionStatement) hrest

theorem statement_succ (h : Congruence R) (ih : RelatesOn R n m) :
    R (Reading.statement (n + 1)) (Reading.statement (m + 1)) := by
  refine h.peek fun t => ?_
  split
  · exact h.bind h.advance fun _ => ih.forStatement
  · refine h.bind h.advance fun _ => h.bind (h.expect _ _) fun _ => ?_
    refine h.bind ih.assignment fun test => h.bind (h.expect _ _) fun _ => ?_
    refine h.bind ih.statement fun yes => h.optional _ ih.statement fun no => ?_
    exact h.pure _
  · refine h.bind h.advance fun _ => h.bind (h.expect _ _) fun _ => ?_
    refine h.bind ih.assignment fun test => h.bind (h.expect _ _) fun _ => ?_
    exact h.bind ih.statement fun body => h.pure _
  · refine h.bind h.advance fun _ => h.bind (h.unlessAt _ ih.assignment) fun value => ?_
    exact h.bind (h.expect _ _) fun _ => h.pure _
  · exact h.bind h.advance fun _ => h.bind ih.block fun body => h.pure _
  · refine h.bind h.advance fun _ => h.bind ih.assignment fun e => ?_
    exact h.bind (h.expect _ _) fun _ => h.pure _
  · exact ih.expressionStatement

end RelatesOn

namespace Congruence

variable {R : {α : Type} → Reading α → Reading α → Prop} {n m : Nat}

/-- **A congruence relates every reading to the one on more fuel**, by induction on the fuel. -/
theorem relatesOn (h : Congruence R) (hnm : n ≤ m) : RelatesOn R n m := by
  induction n generalizing m with
  | zero =>
    exact ⟨h.outOfFuel _, fun _ => h.outOfFuel _, fun _ _ => h.outOfFuel _, h.outOfFuel _,
      fun _ => h.outOfFuel _, fun _ => h.outOfFuel _, h.outOfFuel _, fun _ => h.outOfFuel _,
      h.outOfFuel _, h.outOfFuel _, h.outOfFuel _, h.outOfFuel _, h.outOfFuel _,
      fun _ => h.outOfFuel _, h.outOfFuel _, h.outOfFuel _, h.outOfFuel _, h.outOfFuel _⟩
  | succ n ih =>
    obtain ⟨m, rfl⟩ := Nat.exists_eq_succ_of_ne_zero (Nat.ne_zero_of_lt hnm)
    have hnm := Nat.le_of_succ_le_succ hnm
    have ih := ih hnm
    exact ⟨ih.assignment_succ h, ih.operators_succ h, ih.operatorsAfter_succ h, ih.unary_succ h,
      ih.suffixes_succ h, ih.arguments_succ h, ih.primary_succ h, ih.routine_succ h hnm,
      ih.block_succ h, ih.declaration_succ h, ih.declared_succ h, ih.classDeclared_succ h,
      ih.methods_succ h, ih.named_succ h, ih.variableDeclared_succ h,
      ih.expressionStatement_succ h, ih.forStatement_succ h, ih.statement_succ h⟩

/-- A congruence relates the readings of a program. -/
theorem program (h : Congruence R) (hnm : n ≤ m) :
    R (Reading.program n) (Reading.program m) := by
  induction n generalizing m with
  | zero => exact h.outOfFuel _
  | succ n ih =>
    obtain ⟨m, rfl⟩ := Nat.exists_eq_succ_of_ne_zero (Nat.ne_zero_of_lt hnm)
    have hnm := Nat.le_of_succ_le_succ hnm
    refine h.get fun c => ?_
    split
    · exact h.pure []
    · exact h.bind (h.relatesOn hnm).declaration fun s => h.bind (ih hnm) fun ss => h.pure _

/-- A congruence relates the readings of a line. -/
theorem line (h : Congruence R) (hnm : n ≤ m) : R (Reading.line n) (Reading.line m) := by
  induction n generalizing m with
  | zero => exact h.outOfFuel _
  | succ n ih =>
    obtain ⟨m, rfl⟩ := Nat.exists_eq_succ_of_ne_zero (Nat.ne_zero_of_lt hnm)
    have hnm := Nat.le_of_succ_le_succ hnm
    refine h.get fun c => ?_
    split
    · exact h.pure _
    · split
      case' isTrue => refine h.bind (h.pure none) fun e => ?_
      case' isFalse =>
        rw [trailing?_eq, trailing?_eq]
        refine h.bind (h.attempted (h.relatesOn hnm).assignment) fun e => ?_
      all_goals
        cases e with
        | some e => exact h.pure _
        | none =>
          exact h.bind (h.relatesOn hnm).declaration fun s => h.bind (ih hnm) fun more => h.pure _

end Congruence

end Reading

end LoxLang
