import LoxLang.Proofs.Grammar.Acceptance
import Mathlib.Data.List.Forall2

/-!
# The words of a tree

A tree is written down as a sequence of words: the tokens it keeps, and the kinds of the brackets,
commas, keywords and constants it stands for (`Expr.words`). Tokens are in writing what the words
say if they match them one by one (`Written`). A reading neither drops nor moves anything: where no
`for` loop is read, the tokens are the words of the tree that is returned
(`Stmt.written_of_readAll`, `Expr.written_of_read`). A `for` loop is the one construct that is read
as something else, so the proof goes by `Renders`, which promises nothing about it.
-/

namespace LoxLang

/-- A word of a tree: a token that the tree keeps, or a token of which it only knows the kind. A
constant is the kind of its token. -/
inductive Word
  | kept (t : Token)
  | plain (kind : Kind)

/-- The token is the one the word stands for. -/
def Word.Matches : Word → Token → Prop
  | .kept t, t' => t' = t
  | .plain kind, t' => t'.kind = kind

/-- The tokens are those the words stand for, one by one. -/
def Written (ws : List Word) (ts : List Token) : Prop := List.Forall₂ Word.Matches ws ts

/-- The kind of a constant, which carries its value. -/
def Literal.kind : Literal → Kind
  | .number value => .number value
  | .string contents => .string contents
  | .true => .kwTrue
  | .false => .kwFalse
  | .nil => .kwNil

/-- The words of parameters, with commas between them. -/
def paramWords : List Token → List Word
  | [] => []
  | p :: ps => .kept p :: ps.flatMap fun p => [.plain .comma, .kept p]

variable {σ : Type}

mutual

/-- The words of an expression. -/
def Expr.words : Expr σ → List Word
  | .literal v => [.plain v.kind]
  | .group e => .plain .leftParen :: (e.words ++ [.plain .rightParen])
  | .unary op e => .kept op :: e.words
  | .binary op l r | .logical op l r => l.words ++ .kept op :: r.words
  | .ref s | .this s => [.kept s.name]
  | .assign s e => .kept s.name :: .plain .equal :: e.words
  | .call f paren args => f.words ++ .plain .leftParen :: (Expr.listWords args ++ [.kept paren])
  | .get e name => e.words ++ [.plain .dot, .kept name]
  | .set e name v => e.words ++ .plain .dot :: .kept name :: .plain .equal :: v.words
  | .super s method => [.kept s.name, .plain .dot, .kept method]
  | .lambda params body => .plain .kwFun :: .plain .leftParen :: (paramWords params ++
      .plain .rightParen :: .plain .leftBrace :: (Stmt.wordsAll body ++ [.plain .rightBrace]))

/-- The words of expressions, with commas between them. -/
def Expr.listWords : List (Expr σ) → List Word
  | [] => []
  | e :: es => e.words ++ Expr.moreWords es

/-- The words of further expressions, each behind a comma. -/
def Expr.moreWords : List (Expr σ) → List Word
  | [] => []
  | e :: es => .plain .comma :: (e.words ++ Expr.moreWords es)

/-- The words of a statement. -/
def Stmt.words : Stmt σ → List Word
  | .expression e => e.words ++ [.plain .semicolon]
  | .print e => .plain .kwPrint :: (e.words ++ [.plain .semicolon])
  | .var name none => [.plain .kwVar, .kept name, .plain .semicolon]
  | .var name (some e) =>
    .plain .kwVar :: .kept name :: .plain .equal :: (e.words ++ [.plain .semicolon])
  | .block body => .plain .leftBrace :: (Stmt.wordsAll body ++ [.plain .rightBrace])
  | .cond e yes none => .plain .kwIf :: .plain .leftParen :: (e.words ++ .plain .rightParen ::
      yes.words)
  | .cond e yes (some no) => .plain .kwIf :: .plain .leftParen :: (e.words ++
      .plain .rightParen :: (yes.words ++ .plain .kwElse :: no.words))
  | .loop e body => .plain .kwWhile :: .plain .leftParen :: (e.words ++ .plain .rightParen ::
      body.words)
  | .function name params body => .plain .kwFun :: .kept name :: .plain .leftParen ::
      (paramWords params ++ .plain .rightParen :: .plain .leftBrace ::
        (Stmt.wordsAll body ++ [.plain .rightBrace]))
  | .ret keyword none => [.kept keyword, .plain .semicolon]
  | .ret keyword (some e) => .kept keyword :: (e.words ++ [.plain .semicolon])
  | .classDecl name superclass methods => .plain .kwClass :: .kept name ::
      ((superclass.toList.flatMap fun s => [.plain .less, .kept s.name]) ++
        .plain .leftBrace :: (Method.wordsAll methods ++ [.plain .rightBrace]))

/-- The words of statements in a row. -/
def Stmt.wordsAll : List (Stmt σ) → List Word
  | [] => []
  | s :: ss => s.words ++ Stmt.wordsAll ss

/-- The words of methods in a row. -/
def Method.wordsAll : List (Method σ) → List Word
  | [] => []
  | .mk name params body :: ms => .kept name :: .plain .leftParen :: (paramWords params ++
      .plain .rightParen :: .plain .leftBrace :: (Stmt.wordsAll body ++
        .plain .rightBrace :: Method.wordsAll ms))

end

/-- The words of parameters and a body, behind the opening parenthesis. -/
def routineWords (params : List Token) (body : List (Stmt σ)) : List Word :=
  paramWords params ++ .plain .rightParen :: .plain .leftBrace ::
    (Stmt.wordsAll body ++ [.plain .rightBrace])

theorem Expr.words_join (op : Token) (left right : Expr σ) :
    (Expr.join op left right).words = left.words ++ .kept op :: right.words := by
  unfold Expr.join
  split <;> rfl

namespace Written

variable {ws us vs : List Word} {ts : List Token}

theorem append {u v : List Token} (hu : Written us u) (hv : Written vs v) :
    Written (us ++ vs) (u ++ v) :=
  List.rel_append hu hv

end Written

/-- The tokens are those the words stand for, or there is a `for` among them. -/
def Renders (ws : List Word) (ts : List Token) : Prop :=
  (∃ t ∈ ts, t.kind = .kwFor) ∨ Written ws ts

namespace Renders

variable {ws us vs : List Word} {u v ts : List Token} {t : Token}

theorem nil : Renders [] [] := .inr .nil

theorem append (hu : Renders us u) (hv : Renders vs v) : Renders (us ++ vs) (u ++ v) := by
  rcases hu with ⟨t, ht, hfor⟩ | hu
  · exact .inl ⟨t, List.mem_append_left v ht, hfor⟩
  · rcases hv with ⟨t, ht, hfor⟩ | hv
    · exact .inl ⟨t, List.mem_append_right u ht, hfor⟩
    · exact .inr (hu.append hv)

theorem cons {w : Word} (hw : w.Matches t) (h : Renders ws ts) : Renders (w :: ws) (t :: ts) := by
  have hword : Renders [w] [t] := .inr (.cons hw .nil)
  exact hword.append h

theorem kept (t : Token) (h : Renders ws ts) : Renders (.kept t :: ws) (t :: ts) :=
  .cons (w := .kept t) rfl h

theorem plain {kind : Kind} (ht : t.kind = kind) (h : Renders ws ts) :
    Renders (.plain kind :: ws) (t :: ts) :=
  .cons (w := .plain kind) ht h

theorem loop (ht : t.kind = .kwFor) : Renders ws (t :: ts) := .inl ⟨t, List.mem_cons_self, ht⟩

theorem written (h : Renders ws ts) (hfor : ∀ t ∈ ts, t.kind ≠ .kwFor) : Written ws ts :=
  h.resolve_left fun ⟨t, ht, hkind⟩ => hfor t ht hkind

end Renders

namespace Reading

open Renders

/-- A list that is not empty has the words of its first entry and then those of the others. -/
def RendersList {α : Type} (words : α → List Word) (more : List α → List Word) (xs : List α)
    (w : List Token) : Prop :=
  ∃ y ys, xs = y :: ys ∧ Renders (words y ++ more ys) w

/-- All readings on the given fuel return a tree whose words are the tokens that are read. -/
structure RendersOn (n : Nat) : Prop where
  assignment : Sound none (assignment n) fun e w => Renders e.words w
  operators : ∀ l, Sound none (operators n l) fun e w => Renders e.words w
  operatorsAfter : ∀ l left, Sound none (operatorsAfter n l left) fun e v =>
    ∀ u, Renders left.words u → Renders e.words (u ++ v)
  unary : Sound none (unary n) fun e w => Renders e.words w
  suffixes : ∀ e₀, Sound none (suffixes n e₀) fun e v =>
    ∀ u, Renders e₀.words u → Renders e.words (u ++ v)
  arguments : ∀ count, Sound none (arguments n count) (RendersList Expr.words Expr.moreWords)
  primary : Sound none (primary n) fun e w => Renders e.words w
  routine : ∀ role, Sound none (routine n role) fun r w => Renders (routineWords r.1 r.2) w
  block : Sound none (block n) fun ss w => Renders (Stmt.wordsAll ss ++ [.plain .rightBrace]) w
  declaration : Sound none (declaration n) fun o w => ∃ s ∈ o, Renders s.words w
  declared : Sound none (declared n) fun s w => Renders s.words w
  classDeclared : Sound none (classDeclared n) fun s w =>
    ∀ t : Token, t.kind = .kwClass → Renders s.words (t :: w)
  methods : Sound none (methods n) fun ms w => Renders (Method.wordsAll ms) w
  named : ∀ role, Sound none (named n role) fun r w =>
    Renders (.kept r.1 :: .plain .leftParen :: routineWords r.2.1 r.2.2) w
  variableDeclared : Sound none (variableDeclared n) fun s w =>
    ∀ t : Token, t.kind = .kwVar → Renders s.words (t :: w)
  expressionStatement : Sound none (expressionStatement n) fun s w => Renders s.words w
  statement : Sound none (statement n) fun s w => Renders s.words w

namespace RendersOn

variable {n : Nat}

/-! ## Expressions -/

theorem assignment_succ (ih : RendersOn n) :
    Sound none (Reading.assignment (n + 1)) fun e w => Renders e.words w := by
  refine .bind (ih.operators 0) fun e => .peek fun equals => ?_
  split
  · next heq =>
    refine .bind (.advance (by rw [heq]; nofun)) fun _ => .bind ih.assignment fun value => ?_
    cases e with
    | ref s =>
      refine .pure ?_
      rintro v hv _ rfl u hu
      simpa [Expr.words] using hu.append (.plain heq hv)
    | get object name =>
      refine .pure ?_
      rintro v hv _ rfl u hu
      simpa [Expr.words] using hu.append (.plain heq hv)
    | _ => exact .throw _
  · refine .pure fun u hu => ?_
    rwa [List.append_nil]

theorem operators_succ (ih : RendersOn n) (l : Nat) :
    Sound none (Reading.operators (n + 1) l) fun e w => Renders e.words w :=
  .bind ih.unary fun left => (ih.operatorsAfter l left).mono fun _ _ h u hu => h u hu

theorem operatorsAfter_succ (ih : RendersOn n) (l : Nat) (left : Expr Unit) :
    Sound none (Reading.operatorsAfter (n + 1) l left) fun e v =>
      ∀ u, Renders left.words u → Renders e.words (u ++ v) := by
  have hdone : ∀ {front : Option Token}, Sound front (pure left) fun e v =>
      ∀ u, Renders left.words u → Renders e.words (u ++ v) :=
    .pure fun u hu => by rwa [List.append_nil]
  refine .peek fun op => ?_
  split
  · exact hdone
  · next k hk =>
    split
    · refine .bind (.advance fun h => by rw [h] at hk; cases hk) fun _ => ?_
      refine .bind (ih.operators (k + 1)) fun right => ?_
      refine (ih.operatorsAfter l (.join op left right)).mono ?_
      rintro e v he w hw _ rfl u hu
      have hjoin : Renders (Expr.join op left right).words (u ++ op :: w) := by
        rw [Expr.words_join]
        exact hu.append (.kept op hw)
      simpa using he _ hjoin
    · exact hdone

theorem unary_succ (ih : RendersOn n) :
    Sound none (Reading.unary (n + 1)) fun e w => Renders e.words w := by
  have hprefix : ∀ op : Token, op.kind ≠ .eof →
      Sound (some op) (do Reading.advance; return Expr.unary op (← Reading.unary n)) fun e w =>
        Renders e.words w := by
    intro op hop
    refine .bind (.advance hop) fun _ => .bind ih.unary fun e => .pure ?_
    rintro w hw _ rfl
    rw [List.append_nil]
    exact .kept op hw
  refine .peek fun op => ?_
  split
  · next hop => exact hprefix op (by simp [hop])
  · next hop => exact hprefix op (by simp [hop])
  · exact .bind ih.primary.anywhere fun e => (ih.suffixes e).mono fun _ _ h u hu => h u hu

theorem suffixes_succ (ih : RendersOn n) (e₀ : Expr Unit) :
    Sound none (Reading.suffixes (n + 1) e₀) fun e v =>
      ∀ u, Renders e₀.words u → Renders e.words (u ++ v) := by
  refine .peek fun t => ?_
  split
  · next ht =>
    refine .bind (.advance (by simp [ht])) fun _ => ?_
    refine .bind (.unlessAt _ (ih.arguments 0)) fun args => ?_
    refine .bind (.expect _) fun paren => ?_
    refine (ih.suffixes (.call e₀ paren (args.getD []))).mono ?_
    rintro e v he _ ⟨rfl, -⟩ w hargs _ rfl u hu
    have hlist : Renders (Expr.listWords (args.getD [])) w := by
      obtain ⟨rfl, rfl⟩ | ⟨_, hes, e, es, rfl, hw⟩ := hargs
      · exact .nil
      · cases hes
        exact hw
    have hcall : Renders (Expr.call e₀ paren (args.getD [])).words (u ++ t :: (w ++ [paren])) :=
      hu.append (.plain ht (hlist.append (.kept paren .nil)))
    simpa using he _ hcall
  · next ht =>
    refine .bind (.advance (by simp [ht])) fun _ => .bind (.expect _) fun name => ?_
    refine (ih.suffixes (.get e₀ name)).mono ?_
    rintro e v he _ ⟨rfl, -⟩ _ rfl u hu
    have hget : Renders (Expr.get e₀ name).words (u ++ [t, name]) :=
      hu.append (.plain ht (.kept name .nil))
    simpa using he _ hget
  · exact .pure fun u hu => by rwa [List.append_nil]

/-- A limited list with commas is read from its entries. -/
theorem listed {α : Type} {words : α → List Word} {more : List α → List Word} {count : Nat}
    {cause : GrammarCause} {item : Reading α} {rest : Reading (List α)}
    (hnil : more [] = [])
    (hcons : ∀ x xs, more (x :: xs) = .plain .comma :: (words x ++ more xs))
    (hitem : Sound none item fun x w => Renders (words x) w)
    (hrest : Sound none rest (RendersList words more)) :
    Sound none (do
      if mostArguments ≤ count then Reading.note cause
      let x ← item
      if ← Reading.accept .comma then return x :: (← rest) else return [x])
      (RendersList words more) := by
  have hlist : Sound none (do
      let x ← item
      if ← Reading.accept .comma then return x :: (← rest) else return [x])
      (RendersList words more) := by
    refine .bind hitem fun x => .bind .accept fun comma => ?_
    cases comma with
    | true =>
      refine .bind hrest fun xs => .pure ?_
      rintro v ⟨y, ys, rfl, hv⟩ _ ⟨t, rfl, ht⟩ u hu
      refine ⟨x, y :: ys, rfl, ?_⟩
      rw [hcons]
      simpa using hu.append (.plain ht hv)
    | false =>
      refine .pure ?_
      rintro _ rfl u hu
      refine ⟨x, [], rfl, ?_⟩
      rw [hnil]
      simpa using hu
  dsimp only
  split
  · exact .bind (.note cause) fun _ => hlist.mono fun _ _ _ _ => False.elim
  · exact hlist

theorem arguments_succ (ih : RendersOn n) (count : Nat) :
    Sound none (Reading.arguments (n + 1) count) (RendersList Expr.words Expr.moreWords) :=
  listed rfl (fun _ _ => rfl) ih.assignment (ih.arguments (count + 1))

/-- A constant is the kind of its token. -/
theorem literal {t : Token} {v : Literal} (ht : t.kind = v.kind) :
    Sound (some t) (do Reading.advance; return (Expr.literal v : Expr Unit)) fun e w =>
      Renders e.words w := by
  refine .bind (.advance (by rw [ht]; cases v <;> nofun)) fun _ => .pure ?_
  rintro _ rfl
  exact .plain ht .nil

theorem primary_succ (ih : RendersOn n) :
    Sound none (Reading.primary (n + 1)) fun e w => Renders e.words w := by
  refine .peek fun t => ?_
  split
  · next ht => exact literal ht
  · next ht => exact literal ht
  · next ht => exact literal ht
  · next ht => exact literal ht
  · next ht => exact literal ht
  · next ht =>
    refine .bind (.advance (by simp [ht])) fun _ => .bind (.expect _) fun dot => ?_
    refine .bind (.expect _) fun method => .pure ?_
    rintro _ ⟨rfl, -⟩ _ ⟨rfl, hdot⟩ _ rfl
    exact .kept t (.plain hdot (.kept method .nil))
  · next ht =>
    refine .bind (.advance (by simp [ht])) fun _ => .pure ?_
    rintro _ rfl
    exact .kept t .nil
  · next ht =>
    refine .bind (.advance (by simp [ht])) fun _ => .pure ?_
    rintro _ rfl
    exact .kept t .nil
  · next ht =>
    refine .bind (.advance (by simp [ht])) fun _ => .bind (.expect _) fun paren => ?_
    refine .bind (ih.routine .function) fun r => .pure ?_
    rintro u hu _ ⟨rfl, hparen⟩ _ rfl
    rw [List.append_nil]
    exact .plain ht (.plain hparen hu)
  · next ht =>
    refine .bind (.advance (by simp [ht])) fun _ => .bind ih.assignment fun e => ?_
    refine .bind (.expect _) fun paren => .pure ?_
    rintro _ ⟨rfl, hparen⟩ u hu _ rfl
    exact .plain ht (hu.append (.plain hparen .nil))
  · exact .fail _

/-! ## Bodies -/

theorem parameters (n count : Nat) : Sound none (Reading.parameters n count)
    (RendersList (fun p => [.kept p]) fun ps => ps.flatMap fun p => [.plain .comma, .kept p]) := by
  induction n generalizing count with
  | zero => exact .outOfFuel
  | succ n ih =>
    refine listed rfl (fun _ _ => rfl) ((Sound.expect _).mono ?_) (ih (count + 1))
    rintro t _ ⟨rfl, -⟩
    exact .kept t .nil

theorem routine_succ (ih : RendersOn n) (role : Role) :
    Sound none (Reading.routine (n + 1) role) fun r w => Renders (routineWords r.1 r.2) w := by
  refine .bind (.unlessAt _ (parameters n 0)) fun params => ?_
  refine .bind (.expect _) fun paren => .bind (.expect _) fun brace => ?_
  refine .bind ih.block fun body => .pure ?_
  rintro w hw _ ⟨rfl, hbrace⟩ _ ⟨rfl, hparen⟩ u hparams
  have hlist : Renders (paramWords (params.getD [])) u := by
    obtain ⟨rfl, rfl⟩ | ⟨_, hps, p, ps, rfl, hu⟩ := hparams
    · exact .nil
    · cases hps
      exact hu
  simpa [routineWords] using hlist.append (.plain hparen (.plain hbrace hw))

theorem block_succ (ih : RendersOn n) : Sound none (Reading.block (n + 1)) fun ss w =>
    Renders (Stmt.wordsAll ss ++ [.plain .rightBrace]) w := by
  refine .peek fun t => ?_
  split
  · next ht =>
    refine .bind (.advance (by simp [ht])) fun _ => .pure ?_
    rintro _ rfl
    exact .plain ht .nil
  · exact .fail _
  · refine .bind ih.declaration.anywhere fun o => .bind ih.block fun ss => .pure ?_
    rintro w hw u ⟨s, rfl, hu⟩
    simpa [Stmt.wordsAll] using hu.append hw

theorem named_succ (ih : RendersOn n) (role : Role) :
    Sound none (Reading.named (n + 1) role) fun r w =>
      Renders (.kept r.1 :: .plain .leftParen :: routineWords r.2.1 r.2.2) w := by
  refine .bind (.expect _) fun name => .bind (.expect _) fun paren => ?_
  refine .bind (ih.routine role) fun r => .pure ?_
  rintro u hu _ ⟨rfl, hparen⟩ _ ⟨rfl, -⟩
  simpa using Renders.kept name (.plain hparen hu)

/-! ## Declarations -/

theorem declaration_succ (ih : RendersOn n) :
    Sound none (Reading.declaration (n + 1)) fun o w => ∃ s ∈ o, Renders s.words w :=
  ih.declared.declaration

theorem declared_succ (ih : RendersOn n) :
    Sound none (Reading.declared (n + 1)) fun s w => Renders s.words w := by
  refine .peek fun t => ?_
  split
  · next ht =>
    refine .bind (.advance (by simp [ht])) fun _ => ih.classDeclared.mono ?_
    rintro s w hw _ rfl
    exact hw t ht
  · next ht =>
    refine .get fun c => ?_
    split
    · refine .bind (.advance (by simp [ht])) fun _ => .bind (ih.named .function) fun r => .pure ?_
      rintro w hw _ rfl
      rw [List.append_nil]
      exact .plain ht hw
    · exact ih.statement.anywhere
  · next ht =>
    refine .bind (.advance (by simp [ht])) fun _ => ih.variableDeclared.mono ?_
    rintro s w hw _ rfl
    exact hw t ht
  · exact ih.statement.anywhere

theorem variableDeclared_succ (ih : RendersOn n) :
    Sound none (Reading.variableDeclared (n + 1)) fun s w =>
      ∀ t : Token, t.kind = .kwVar → Renders s.words (t :: w) := by
  refine .bind (.expect _) fun name => .optional ih.assignment fun init => ?_
  refine .bind (.expect _) fun semicolon => .pure ?_
  rintro _ ⟨rfl, hsemicolon⟩ u hu _ ⟨rfl, -⟩ t ht
  obtain ⟨rfl, rfl⟩ | ⟨e, equals, v, rfl, hequals, rfl, hv⟩ := hu
  · exact .plain ht (.kept name (.plain hsemicolon .nil))
  · exact .plain ht (.kept name (.plain hequals (hv.append (.plain hsemicolon .nil))))

theorem methods_succ (ih : RendersOn n) :
    Sound none (Reading.methods (n + 1)) fun ms w => Renders (Method.wordsAll ms) w := by
  refine .peek fun t => ?_
  split
  · exact .pure .nil
  · exact .pure .nil
  · refine .bind (ih.named .method).anywhere fun r => .bind ih.methods fun ms => .pure ?_
    rintro w hw u hu
    simpa [Method.wordsAll, routineWords] using hu.append hw

theorem classDeclared_succ (ih : RendersOn n) :
    Sound none (Reading.classDeclared (n + 1)) fun s w =>
      ∀ t : Token, t.kind = .kwClass → Renders s.words (t :: w) := by
  refine .bind (.expect _) fun name => .optional (.expect _) fun superclass => ?_
  refine .bind (.expect _) fun left => .bind ih.methods fun ms => ?_
  refine .bind (.expect _) fun right => .pure ?_
  rintro _ ⟨rfl, hright⟩ w hw _ ⟨rfl, hleft⟩ u hu _ ⟨rfl, -⟩ t ht
  have hbody : Renders (.plain .leftBrace :: (Method.wordsAll ms ++ [.plain .rightBrace]))
      (left :: (w ++ [right])) := .plain hleft (hw.append (.plain hright .nil))
  obtain ⟨rfl, rfl⟩ | ⟨s, less, _, rfl, hless, rfl, rfl, -⟩ := hu
  · exact .plain ht (.kept name hbody)
  · exact .plain ht (.kept name (.plain hless (.kept s hbody)))

/-! ## Statements -/

theorem expressionStatement_succ (ih : RendersOn n) :
    Sound none (Reading.expressionStatement (n + 1)) fun s w => Renders s.words w := by
  refine .bind ih.assignment fun e => .bind (.expect _) fun semicolon => .pure ?_
  rintro _ ⟨rfl, hsemicolon⟩ u hu
  exact hu.append (.plain hsemicolon .nil)

theorem statement_succ (ih : RendersOn n) :
    Sound none (Reading.statement (n + 1)) fun s w => Renders s.words w := by
  refine .peek fun t => ?_
  split
  · next ht =>
    refine .bind (.advance (by simp [ht])) fun _ => (soundOn n).forStatement.mono ?_
    rintro s w - _ rfl
    exact .loop ht
  · next ht =>
    refine .bind (.advance (by simp [ht])) fun _ => .bind (.expect _) fun left => ?_
    refine .bind ih.assignment fun e => .bind (.expect _) fun right => ?_
    refine .bind ih.statement fun yes => .optional ih.statement fun no => .pure ?_
    rintro v hv w hw _ ⟨rfl, hright⟩ u hu _ ⟨rfl, hleft⟩ _ rfl
    obtain ⟨rfl, rfl⟩ | ⟨s, t', v', rfl, ht', rfl, hv'⟩ := hv
    · simpa [Stmt.words] using Renders.plain ht (.plain hleft (hu.append (.plain hright hw)))
    · simpa [Stmt.words] using Renders.plain ht (.plain hleft (hu.append (.plain hright
        (hw.append (.plain ht' hv')))))
  · next ht =>
    refine .bind (.advance (by simp [ht])) fun _ => .bind (.expect _) fun left => ?_
    refine .bind ih.assignment fun e => .bind (.expect _) fun right => ?_
    refine .bind ih.statement fun body => .pure ?_
    rintro w hw _ ⟨rfl, hright⟩ u hu _ ⟨rfl, hleft⟩ _ rfl
    simpa [Stmt.words] using Renders.plain ht (.plain hleft (hu.append (.plain hright hw)))
  · next ht =>
    refine .bind (.advance (by simp [ht])) fun _ => ?_
    refine .bind (.unlessAt _ ih.assignment) fun value => ?_
    refine .bind (.expect _) fun semicolon => .pure ?_
    rintro _ ⟨rfl, hsemicolon⟩ u hu _ rfl
    obtain ⟨rfl, rfl⟩ | ⟨e, he, hu⟩ := hu
    · exact .kept t (.plain hsemicolon .nil)
    · cases he
      exact .kept t (hu.append (.plain hsemicolon .nil))
  · next ht =>
    refine .bind (.advance (by simp [ht])) fun _ => .bind ih.block fun body => .pure ?_
    rintro w hw _ rfl
    simpa [Stmt.words] using Renders.plain ht hw
  · next ht =>
    refine .bind (.advance (by simp [ht])) fun _ => .bind ih.assignment fun e => ?_
    refine .bind (.expect _) fun semicolon => .pure ?_
    rintro _ ⟨rfl, hsemicolon⟩ u hu _ rfl
    exact .plain ht (hu.append (.plain hsemicolon .nil))
  · exact ih.expressionStatement.anywhere

end RendersOn

/-- **Every reading returns a tree with the words that are read**, by induction on the fuel. -/
theorem rendersOn (n : Nat) : RendersOn n := by
  induction n with
  | zero =>
    exact ⟨.outOfFuel, fun _ => .outOfFuel, fun _ _ => .outOfFuel, .outOfFuel, fun _ => .outOfFuel,
      fun _ => .outOfFuel, .outOfFuel, fun _ => .outOfFuel, .outOfFuel, .outOfFuel, .outOfFuel,
      .outOfFuel, .outOfFuel, fun _ => .outOfFuel, .outOfFuel, .outOfFuel, .outOfFuel⟩
  | succ n ih =>
    exact ⟨ih.assignment_succ, ih.operators_succ, ih.operatorsAfter_succ, ih.unary_succ,
      ih.suffixes_succ, ih.arguments_succ, ih.primary_succ, ih.routine_succ, ih.block_succ,
      ih.declaration_succ, ih.declared_succ, ih.classDeclared_succ, ih.methods_succ, ih.named_succ,
      ih.variableDeclared_succ, ih.expressionStatement_succ, ih.statement_succ⟩

theorem program_renders (n : Nat) :
    Sound none (program n) fun ss w => Renders (Stmt.wordsAll ss) w := by
  induction n with
  | zero => exact .outOfFuel
  | succ n ih =>
    refine .get fun c => ?_
    split
    · exact .pure .nil
    · refine .bind (rendersOn n).declaration fun s => .bind ih fun ss => .pure ?_
      rintro v hv u ⟨s, rfl, hu⟩
      rw [List.append_nil]
      exact hu.append hv

end Reading

/-- **Where a program without `for` loops is read, the tokens are the words of its statements.** -/
theorem Stmt.written_of_readAll {tokens : List Token} (hfor : ∀ t ∈ tokens, t.kind ≠ .kwFor)
    {ss : List (Stmt Unit)} (h : Stmt.readAll tokens = .ok ss) :
    Written (Stmt.wordsAll ss) (tokens.takeWhile (!·.isEnd)) := by
  obtain ⟨c, hread, hc⟩ := Reading.run_ok_iff.1 h
  obtain ⟨w, hw, hrenders⟩ := Reading.Sound.of_run Reading.program_renders hread hc
  rw [Reading.program_rest hread, List.append_nil] at hw
  rw [hw]
  refine hrenders.written fun t ht => hfor t ?_
  exact (List.takeWhile_prefix _).mem (hw ▸ ht)

/-- **Where an expression without `for` loops is read, the tokens are its words.** -/
theorem Expr.written_of_read {tokens : List Token} (hfor : ∀ t ∈ tokens, t.kind ≠ .kwFor)
    {e : Expr Unit} (h : Expr.read tokens = .ok e) :
    Written e.words (tokens.takeWhile (!·.isEnd)) := by
  obtain ⟨c, hread, hrest, hc⟩ := Expr.read_ok_iff.1 h
  obtain ⟨w, hw, hrenders⟩ :=
    Reading.Sound.of_run (fun n => (Reading.rendersOn n).assignment) hread hc
  rw [hrest, List.append_nil] at hw
  rw [hw]
  refine hrenders.written fun t ht => hfor t ?_
  exact (List.takeWhile_prefix _).mem (hw ▸ ht)

end LoxLang
