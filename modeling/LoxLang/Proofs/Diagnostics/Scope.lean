import LoxLang.Proofs.Grammar.Layout
import LoxLang.Proofs.Scope.Violations
import Mathlib.Order.Nat

/-!
# The order of violations of scope

Resolving reports violations in the order in which it visits the parts of a tree. That is the order
of the text with two exceptions: it visits the value that a property is set to before the object,
and the body of a `for` loop before the step that the text has in front of it. So the lines of the
violations do not decrease if no part that is visited first breaks a rule on a later line than the
part it overtakes (`Node.Straight`), and only then.

The proof goes by how a tree is laid in its tokens. Tokens in the order of their lines that are on
the lines from `lo` to `hi` (`Token.Span`) fall into stretches with lines of their own, and the
violations of a phrase are on the lines of its stretch (`Laid.told`).
-/

namespace LoxLang

variable {σ : Type}

/-- All violations of the first list are on no later line than those of the second. -/
def ScopeError.AllBefore (as bs : List ScopeError) : Prop :=
  ∀ a ∈ as, ∀ b ∈ bs, a.token.line ≤ b.token.line

open ScopeError (AllBefore)

/-- The violations of a statement are on no later line than those of an expression statement, if the
one and the other are all there is. -/
def Stmt.Consecutive (Γ : Context) : List (Stmt σ) → Prop
  | [body, .expression step] =>
    AllBefore ((Node.stmt body).allViolations Γ) ((Node.expr step).allViolations (Γ.after body))
  | _ => True

/-- Where resolving leaves the order of the text, it does not leave the order of lines: the value of
a property is visited before the object, and the body of a `for` loop before its step. -/
def Node.Straight (Γ : Context) : Node σ → Prop
  | .expr (.set object _ value) =>
    AllBefore ((Node.expr value).allViolations Γ) ((Node.expr object).allViolations Γ)
  | .stmt (.loop _ (.block body)) => Stmt.Consecutive (.block :: Γ) body
  | _ => True

/-! ## Lines of tokens -/

/-- The lines of the tokens do not decrease, from `lo` on and up to `hi`. -/
def Token.Span (lo hi : Nat) : List Token → Prop
  | [] => lo ≤ hi
  | t :: ts => lo ≤ t.line ∧ Span t.line hi ts

namespace Token

variable {lo lo' mid hi hi' : Nat} {t : Token} {ts us : List Token}

theorem Span.le (h : Span lo hi ts) : lo ≤ hi := by
  induction ts generalizing lo with
  | nil => exact h
  | cons t ts ih => exact h.1.trans (ih h.2)

theorem Span.widen (h : Span lo hi ts) (hlo : lo' ≤ lo) (hhi : hi ≤ hi') : Span lo' hi' ts := by
  induction ts generalizing lo lo' with
  | nil => exact hlo.trans (h.trans hhi)
  | cons t ts ih => exact ⟨hlo.trans h.1, ih h.2 (Nat.le_refl _)⟩

/-- A line between two stretches parts the lines of the one from those of the other. -/
theorem span_append : Span lo hi (ts ++ us) ↔ ∃ mid, Span lo mid ts ∧ Span mid hi us := by
  induction ts generalizing lo with
  | nil =>
    refine ⟨fun h => ⟨lo, Nat.le_refl lo, h⟩, ?_⟩
    rintro ⟨mid, hlo, h⟩
    exact h.widen hlo (Nat.le_refl hi)
  | cons t ts ih =>
    rw [List.cons_append, Span, ih]
    constructor
    · rintro ⟨hlo, mid, hts, hus⟩
      exact ⟨mid, ⟨hlo, hts⟩, hus⟩
    · rintro ⟨mid, ⟨hlo, hts⟩, hus⟩
      exact ⟨hlo, mid, hts, hus⟩

theorem Span.skip (h : Span lo hi (t :: ts)) : Span lo hi ts := h.2.widen h.1 (Nat.le_refl hi)

theorem Span.init (h : Span lo hi (ts ++ us)) : Span lo hi ts := by
  obtain ⟨mid, hts, hus⟩ := span_append.1 h
  exact hts.widen (Nat.le_refl lo) hus.le

theorem Span.exists_of_pairwise (h : ts.Pairwise (·.line ≤ ·.line)) (hlo : ∀ t ∈ ts, lo ≤ t.line) :
    ∃ hi, Span lo hi ts := by
  induction ts generalizing lo with
  | nil => exact ⟨lo, Nat.le_refl lo⟩
  | cons t ts ih =>
    obtain ⟨ht, hts⟩ := List.pairwise_cons.1 h
    obtain ⟨hi, hspan⟩ := ih hts ht
    exact ⟨hi, hlo t List.mem_cons_self, hspan⟩

end Token

open Token (Span)

/-! ## Reports on lines -/

/-- Between two points of a walk violations on the lines from `lo` to `hi` are reported, and their
lines do not decrease if and only if `P` holds. -/
def Walk.Tells (w w' : Walk) (lo hi : Nat) (P : Prop) : Prop :=
  ∃ es : List ScopeError, w'.errors = es.reverse ++ w.errors ∧
    (∀ e ∈ es, lo ≤ e.token.line ∧ e.token.line ≤ hi) ∧
    (es.Pairwise (·.token.line ≤ ·.token.line) ↔ P) ∧ lo ≤ hi

namespace Walk.Tells

variable {w w₁ w₂ : Walk} {lo mid hi lo' hi' : Nat} {P Q : Prop} {vs vs₁ vs₂ : List ScopeError}

theorem congr {w' w₁' : Walk} (h : Tells w w₁ lo hi P) (he : w'.errors = w.errors)
    (he₁ : w₁'.errors = w₁.errors) : Tells w' w₁' lo hi P := by
  unfold Tells at h ⊢
  rwa [he, he₁]

theorem iff (h : Tells w w₁ lo hi P) (hPQ : P ↔ Q) : Tells w w₁ lo hi Q := by
  rwa [← propext hPQ]

theorem widen (h : Tells w w₁ lo hi P) (hlo : lo' ≤ lo) (hhi : hi ≤ hi') :
    Tells w w₁ lo' hi' P := by
  obtain ⟨es, herrors, hlines, hsorted, hle⟩ := h
  exact ⟨es, herrors, fun e he => ⟨hlo.trans (hlines e he).1, (hlines e he).2.trans hhi⟩, hsorted,
    hlo.trans (hle.trans hhi)⟩

/-- A step that reports nothing. -/
theorem step (hle : lo ≤ hi) (h : w₁.errors = w.errors) : Tells w w₁ lo hi True :=
  ⟨[], h, nofun, iff_of_true .nil trivial, hle⟩

/-- A step that may report a violation at a token. -/
theorem check (w : Walk) {t : Token} (cause : ScopeCause) (p : Prop) [Decidable p]
    (hlo : lo ≤ t.line) (hhi : t.line ≤ hi) :
    Tells w (if p then w.report t cause else w) lo hi True := by
  split
  · exact ⟨[⟨t, cause⟩], rfl, List.forall_mem_singleton.2 ⟨hlo, hhi⟩,
      iff_of_true (List.pairwise_singleton ..) trivial, hlo.trans hhi⟩
  · exact step (hlo.trans hhi) rfl

/-- One stretch of a walk after another, in the order of lines. -/
theorem seq (h₁ : Tells w w₁ lo mid P) (h₂ : Tells w₁ w₂ mid hi Q) : Tells w w₂ lo hi (P ∧ Q) := by
  obtain ⟨es₁, herrors₁, hlines₁, hsorted₁, hle₁⟩ := h₁
  obtain ⟨es₂, herrors₂, hlines₂, hsorted₂, hle₂⟩ := h₂
  refine ⟨es₁ ++ es₂, by simp [herrors₁, herrors₂], fun e he => ?_, ?_, hle₁.trans hle₂⟩
  · rcases List.mem_append.1 he with he | he
    · exact ⟨(hlines₁ e he).1, (hlines₁ e he).2.trans hle₂⟩
    · exact ⟨hle₁.trans (hlines₂ e he).1, (hlines₂ e he).2⟩
  · rw [List.pairwise_append, hsorted₁, hsorted₂]
    have hacross : ∀ a ∈ es₁, ∀ b ∈ es₂, a.token.line ≤ b.token.line :=
      fun a ha b hb => (hlines₁ a ha).2.trans (hlines₂ b hb).1
    exact ⟨fun h => ⟨h.1, h.2.1⟩, fun h => ⟨h.1, h.2, hacross⟩⟩

/-- A step in front that says nothing about the order. -/
theorem behind (h₁ : Tells w w₁ lo mid True) (h₂ : Tells w₁ w₂ mid hi P) : Tells w w₂ lo hi P :=
  (h₁.seq h₂).iff (iff_of_eq (true_and P))

/-- A step behind that says nothing about the order. -/
theorem before (h₁ : Tells w w₁ lo mid P) (h₂ : Tells w₁ w₂ mid hi True) : Tells w w₂ lo hi P :=
  (h₁.seq h₂).iff (iff_of_eq (and_true P))

/-- Nothing is reported about no parts. -/
theorem nil {α : Type} {q : α → Prop} (hle : lo ≤ hi) (h : w₁.errors = w.errors) :
    Tells w w₁ lo hi (∀ x ∈ [], q x) :=
  (step hle h).iff (iff_of_true trivial nofun)

/-- A part and those behind it. -/
theorem cons {α : Type} {q : α → Prop} {x : α} {xs : List α} (h₁ : Tells w w₁ lo mid (q x))
    (h₂ : Tells w₁ w₂ mid hi (∀ y ∈ xs, q y)) : Tells w w₂ lo hi (∀ y ∈ x :: xs, q y) :=
  (h₁.seq h₂).iff List.forall_mem_cons.symm

/-- The violations that are reported are those that the walk is known to report. -/
theorem mem_iff {es : List ScopeError} (herrors : w₁.errors = es.reverse ++ w.errors)
    (h : Reports w w₁ vs) {e : ScopeError} : e ∈ es ↔ e ∈ vs := by
  have hperm : es.reverse.Perm vs := (List.perm_append_right_iff w.errors).1 (herrors ▸ h)
  rw [← hperm.mem_iff, List.mem_reverse]

/-- A stretch of a walk that overtakes the one that stands in front of it in the text. -/
theorem overtake (h₂ : Tells w w₁ mid hi Q) (h₁ : Tells w₁ w₂ lo mid P) (hr₂ : Reports w w₁ vs₂)
    (hr₁ : Reports w₁ w₂ vs₁) : Tells w w₂ lo hi (AllBefore vs₂ vs₁ ∧ P ∧ Q) := by
  obtain ⟨es₂, herrors₂, hlines₂, hsorted₂, hle₂⟩ := h₂
  obtain ⟨es₁, herrors₁, hlines₁, hsorted₁, hle₁⟩ := h₁
  refine ⟨es₂ ++ es₁, by simp [herrors₁, herrors₂], fun e he => ?_, ?_, hle₁.trans hle₂⟩
  · rcases List.mem_append.1 he with he | he
    · exact ⟨hle₁.trans (hlines₂ e he).1, (hlines₂ e he).2⟩
    · exact ⟨(hlines₁ e he).1, (hlines₁ e he).2.trans hle₂⟩
  · rw [List.pairwise_append, hsorted₁, hsorted₂]
    simp only [mem_iff herrors₁ hr₁, mem_iff herrors₂ hr₂]
    exact ⟨fun h => ⟨h.2.2, h.2.1, h.1⟩, fun h => ⟨h.2.2, h.2.1, h.1⟩⟩

/-- What is reported on earlier lines comes before what is reported on later ones. -/
theorem allBefore (h₁ : Tells w w₁ lo mid P) (h₂ : Tells w₁ w₂ mid hi Q) (hr₁ : Reports w w₁ vs₁)
    (hr₂ : Reports w₁ w₂ vs₂) : AllBefore vs₁ vs₂ := by
  obtain ⟨es₁, herrors₁, hlines₁, -⟩ := h₁
  obtain ⟨es₂, herrors₂, hlines₂, -⟩ := h₂
  exact fun a ha b hb => (hlines₁ a ((mem_iff herrors₁ hr₁).2 ha)).2.trans
    (hlines₂ b ((mem_iff herrors₂ hr₂).2 hb)).1

/-! ### Steps of resolving -/

variable {s : Site Nat}

theorem bind (w : Walk) (s : Site Nat) (hle : lo ≤ hi) : Tells w (w.bind s) lo hi True := by
  refine step hle ?_
  unfold Walk.bind
  split <;> rfl

theorem enter (w : Walk) (name : String) (ready : Bool) (hle : lo ≤ hi) :
    Tells w (w.enter name ready) lo hi True := by
  refine step hle ?_
  unfold Walk.enter
  split <;> rfl

theorem read (w : Walk) (hlo : lo ≤ s.name.line) (hhi : s.name.line ≤ hi) :
    Tells w (w.read s) lo hi True :=
  (check w .readInInitializer _ hlo hhi).behind (bind _ s (Nat.le_refl hi))

theorem readThis (w : Walk) (hlo : lo ≤ s.name.line) (hhi : s.name.line ≤ hi) :
    Tells w (w.readThis s) lo hi True := by
  unfold Walk.readThis
  split
  · exact (check w .thisOutsideClass True hlo hhi).congr rfl rfl
  · exact bind w s (hlo.trans hhi)

theorem readSuper (w : Walk) (hlo : lo ≤ s.name.line) (hhi : s.name.line ≤ hi) :
    Tells w (w.readSuper s) lo hi True := by
  have hbound : ∀ {w₁ : Walk}, Tells w w₁ lo hi True → Tells w (w₁.bind s) lo hi True :=
    fun h => h.behind (bind _ s (Nat.le_refl hi))
  unfold Walk.readSuper
  dsimp only
  split
  · exact hbound ((check w .superOutsideClass True hlo hhi).congr rfl rfl)
  · exact hbound ((check w .superWithoutSuperclass True hlo hhi).congr rfl rfl)
  · exact bind w s (hlo.trans hhi)

theorem checkReturn (w : Walk) {keyword : Token} (hasValue : Bool) (hlo : lo ≤ keyword.line)
    (hhi : keyword.line ≤ hi) : Tells w (w.checkReturn keyword hasValue) lo hi True :=
  (check w .topLevelReturn _ hlo (Nat.le_refl _)).behind
    (check _ .initializerValue _ (Nat.le_refl _) hhi)

theorem declare (w : Walk) {name : Token} (hlo : lo ≤ name.line) (hhi : name.line ≤ hi) :
    Tells w (w.declare name) lo hi True := by
  unfold Walk.declare
  split
  · exact step (hlo.trans hhi) rfl
  · split
    · exact (check w .declaredTwice True hlo hhi).congr rfl rfl
    · exact enter w name.lexeme false (hlo.trans hhi)

theorem introduce (w : Walk) {name : Token} (hlo : lo ≤ name.line) (hhi : name.line ≤ hi) :
    Tells w (w.introduce name) lo hi True :=
  (declare w hlo hhi).behind (enter _ name.lexeme true (Nat.le_refl hi))

theorem foldl_introduce (w : Walk) {params : List Token} (h : Span lo hi params) :
    Tells w (params.foldl Walk.introduce w) lo hi True := by
  induction params generalizing w lo with
  | nil => exact step h rfl
  | cons p params ih => exact (introduce w h.1 (Nat.le_refl _)).behind (ih (w.introduce p) h.2)

/-- Entering a body, walking through it and leaving it. -/
theorem inBody {kind : BodyKind} {params : List Token} (around : BodyKind)
    (hparams : Span lo mid params) (h : Tells (w.enterBody kind params) w₁ mid hi P) :
    Tells w (w₁.leaveBody around) lo hi P := by
  have hopen : Tells w (w.enterBody kind params) lo mid True :=
    (foldl_introduce { w with body := kind }.openScope hparams).congr rfl rfl
  exact hopen.behind (h.congr rfl rfl)

theorem enterOpened (w : Walk) (name : String) (hle : lo ≤ hi) :
    Tells w (w.openScope.enter name true) lo hi True :=
  (enter w.openScope name true hle).congr rfl rfl

/-- Entering a class. The superclass is named behind the class. -/
theorem enterClass (w : Walk) (name : Token) (superclass : Option (Site Nat))
    (h : Span lo hi (name :: superclass.toList.map Site.name)) :
    Tells w (w.enterClass name superclass) lo hi True := by
  have hname : Tells w ({ w with cls := .base }.introduce name) lo name.line True :=
    (introduce { w with cls := .base } h.1 (Nat.le_refl _)).congr rfl rfl
  unfold Walk.enterClass
  cases superclass with
  | none => exact hname.behind (enterOpened _ thisName h.2)
  | some s =>
    obtain ⟨-, hs, hhi⟩ := h
    have hown := check ({ w with cls := .base }.introduce name) .ownSuperclass
      (s.name.lexeme = name.lexeme) hs (Nat.le_refl _)
    have hread : ∀ w : Walk, Tells w ({ w with cls := .derived }.read s) s.name.line hi True :=
      fun w => (read { w with cls := .derived } (Nat.le_refl _) hhi).congr rfl rfl
    exact ((hname.behind hown).behind (hread _)).behind
      ((enterOpened _ superName (Nat.le_refl hi)).behind (enterOpened _ thisName (Nat.le_refl hi)))

theorem leaveClass (h : Tells w w₁ lo hi P) (derived : Bool) (around : ClassKind) :
    Tells w (w₁.leaveClass derived around) lo hi P := by
  refine h.congr rfl ?_
  cases derived <;> rfl

/-! ### Trees -/

variable {node node₁ node₂ : Node σ} {Γ Γ₁ Γ₂ : Context}

theorem leaf (h : Tells w w₁ lo hi True) (hnode : node.Straight Γ) (hc : node.children Γ = []) :
    Tells w w₁ lo hi (node.Everywhere Node.Straight Γ) :=
  h.iff (iff_of_true trivial (.leaf hnode hc))

theorem one (h : Tells w w₁ lo hi (node₁.Everywhere Node.Straight Γ₁)) (hnode : node.Straight Γ)
    (hc : node.children Γ = [(Γ₁, node₁)]) :
    Tells w w₁ lo hi (node.Everywhere Node.Straight Γ) :=
  h.iff ⟨fun h₁ => .one hnode hc h₁, fun h => h.child (hc ▸ .head _)⟩

/-- A node with two parts whose order is that of lines under some condition. -/
theorem both (h : Tells w w₁ lo hi (P ∧ node₁.Everywhere Node.Straight Γ₁ ∧
      node₂.Everywhere Node.Straight Γ₂)) (hnode : node.Straight Γ ↔ P)
    (hc : node.children Γ = [(Γ₁, node₁), (Γ₂, node₂)]) :
    Tells w w₁ lo hi (node.Everywhere Node.Straight Γ) :=
  h.iff ⟨fun h => .two (hnode.2 h.1) hc h.2.1 h.2.2, fun h =>
    ⟨hnode.1 h.here, h.child (hc ▸ .head _), h.child (hc ▸ .tail _ (.head _))⟩⟩

theorem two (h : Tells w w₁ lo hi (node₁.Everywhere Node.Straight Γ₁ ∧
      node₂.Everywhere Node.Straight Γ₂)) (hnode : node.Straight Γ)
    (hc : node.children Γ = [(Γ₁, node₁), (Γ₂, node₂)]) :
    Tells w w₁ lo hi (node.Everywhere Node.Straight Γ) :=
  both (h.iff (iff_of_eq (true_and _)).symm) (iff_of_true hnode trivial) hc

end Walk.Tells

open Walk (Tells)

/-- The nodes of a loop whose body is a block of a statement and a step. -/
theorem Node.everywhere_loopStep {e step : Expr σ} {body : Stmt σ} {Γ : Context} :
    (Node.stmt (.loop e (.block [body, .expression step]))).Everywhere Node.Straight Γ ↔
      (Node.expr e).Everywhere Node.Straight Γ ∧
        AllBefore ((Node.stmt body).allViolations (.block :: Γ))
          ((Node.expr step).allViolations (Context.after (.block :: Γ) body)) ∧
        (Node.expr step).Everywhere Node.Straight (Context.after (.block :: Γ) body) ∧
        (Node.stmt body).Everywhere Node.Straight (.block :: Γ) := by
  constructor
  · intro h
    have hblock := (h.child (.tail _ (.head _))).child (.head _)
    have hstep := ((hblock.child (.tail _ (.head _))).child (.head _)).child (.head _)
    exact ⟨h.child (.head _), h.here, hstep, hblock.child (.head _)⟩
  · rintro ⟨he, hbefore, hstep, hbody⟩
    have hlast : (Node.stmt (.expression step)).Everywhere Node.Straight _ :=
      .one trivial rfl hstep
    exact .two hbefore rfl he
      (.one trivial rfl (.two trivial rfl hbody (.two trivial rfl hlast (.leaf trivial rfl))))

/-- Resolving the expression reports violations on the lines from `lo` to `hi`, wherever it stands
and however its sites are numbered, and their lines do not decrease if and only if all nodes in it
are straight. -/
def Expr.Told (lo hi : Nat) (e : Expr Unit) : Prop :=
  ∀ (n : Nat) {w : Walk} {Γ : Context}, w.At Γ → Tells w ((e.label n).1.resolve w) lo hi
    ((Node.expr (e.label n).1).Everywhere Node.Straight Γ)

/-- The same of a statement; and the nodes that are not straight are in it, also where it is the
body of a loop. -/
def Stmt.Told (lo hi : Nat) (s : Stmt Unit) : Prop :=
  ∀ (n : Nat) {w : Walk} {Γ : Context}, w.At Γ → Γ.Settled →
    Tells w ((s.label n).1.resolve w) lo hi
      ((Node.stmt (s.label n).1).Everywhere Node.Straight Γ) ∧
    ∀ test, (Node.stmt (.loop test (s.label n).1)).Straight Γ

/-- The same of statements. -/
def Stmt.ToldAll (lo hi : Nat) (ss : List (Stmt Unit)) : Prop :=
  ∀ (n : Nat) {w : Walk} {Γ : Context}, w.At Γ → Γ.Settled →
    Tells w (Stmt.resolveAll (Stmt.labelAll ss n).1 w) lo hi
      ((Node.stmts (Stmt.labelAll ss n).1).Everywhere Node.Straight Γ) ∧
    Stmt.Consecutive Γ (Stmt.labelAll ss n).1

/-- The same of a phrase. -/
def Phrase.Told (lo hi : Nat) : Phrase → Prop
  | .expr e => e.Told lo hi
  | .optional o => ∀ e ∈ o, e.Told lo hi
  | .args es => ∀ (n : Nat) {w : Walk} {Γ : Context}, w.At Γ →
      Tells w (Expr.resolveAll (Expr.labelAll es n).1 w) lo hi
        (∀ e ∈ (Expr.labelAll es n).1, (Node.expr e).Everywhere Node.Straight Γ)
  | .params ps => Span lo hi ps
  | .routine ps body => ∀ (n : Nat) {w : Walk} {Γ : Context} (kind around : BodyKind), w.At Γ →
      Tells w ((Stmt.resolveAll (Stmt.labelAll body n).1 (w.enterBody kind ps)).leaveBody around)
        lo hi ((Node.stmts (Stmt.labelAll body n).1).Everywhere Node.Straight
          (.ofParams kind ps :: Γ))
  | .stmt s => s.Told lo hi
  | .start o => ∀ s ∈ o, s.Told lo hi
  | .stmts ss => Stmt.ToldAll lo hi ss
  | .methods ms => ∀ (n : Nat) {w : Walk} {Γ : Context}, w.At Γ →
      Tells w (Method.resolveAll (Method.labelAll ms n).1 w) lo hi
        (∀ m ∈ (Method.labelAll ms n).1, (m.node Γ).2.Everywhere Node.Straight (m.node Γ).1)

namespace Expr.Told

variable {lo mid hi : Nat} {a b e : Expr Unit}

theorem binary (op : Token) (ha : a.Told lo mid) (hb : b.Told mid hi) :
    Told lo hi (.binary op a b) := by
  intro n w Γ hw
  exact ((ha n hw).seq (hb (a.label n).2 ((a.label n).1.at_resolve hw))).two trivial rfl

theorem logical (op : Token) (ha : a.Told lo mid) (hb : b.Told mid hi) :
    Told lo hi (.logical op a b) := by
  intro n w Γ hw
  exact ((ha n hw).seq (hb (a.label n).2 ((a.label n).1.at_resolve hw))).two trivial rfl

/-- The site of an assignment is bound when its value has been visited. -/
theorem assign (s : Site Unit) (he : e.Told lo hi) : Told lo hi (.assign s e) :=
  fun n _ _ hw => ((he (n + 1) hw).before (.bind _ _ (Nat.le_refl hi))).one trivial rfl

theorem call {es : List (Expr Unit)} (paren : Token) (he : e.Told lo mid)
    (hes : Phrase.Told mid hi (.args es)) : Told lo hi (.call e paren es) := by
  intro n w Γ hw
  have hboth := (he n hw).seq (hes (e.label n).2 ((e.label n).1.at_resolve hw))
  refine hboth.iff ⟨fun h => ?_, fun h => ⟨h.child (.head _), fun e' he' => ?_⟩⟩
  · exact .intro trivial (List.forall_mem_cons.2 ⟨h.1, List.forall_mem_map.2 h.2⟩)
  · exact h.child (.tail _ (List.mem_map.2 ⟨e', he', rfl⟩))

/-- The value that a property is set to, which the text has behind the object, is resolved first. -/
theorem set (name : Token) (ha : a.Told lo mid) (hb : b.Told mid hi) :
    Told lo hi (.set a name b) := by
  intro n w Γ hw
  have hat := (b.label (a.label n).2).1.at_resolve hw
  have hboth := (hb (a.label n).2 hw).overtake (ha n hat) ((b.label _).1.reports_resolve hw)
    ((a.label n).1.reports_resolve hat)
  exact hboth.both Iff.rfl rfl

end Expr.Told

namespace Phrase.Told

variable {lo mid hi : Nat}

theorem args_nil (hle : lo ≤ hi) : Told lo hi (.args []) := fun _ _ _ _ => .nil hle rfl

theorem args_cons {e : Expr Unit} {es : List (Expr Unit)} (he : e.Told lo mid)
    (hes : Told mid hi (.args es)) : Told lo hi (.args (e :: es)) := by
  intro n w Γ hw
  exact .cons (q := fun e => (Node.expr e).Everywhere Node.Straight Γ) (he n hw)
    (hes (e.label n).2 ((e.label n).1.at_resolve hw))

theorem routine {params : List Token} {body : List (Stmt Unit)} (hparams : Span lo mid params)
    (hbody : Stmt.ToldAll mid hi body) : Told lo hi (.routine params body) := by
  intro n w Γ kind around hw
  exact .inBody around hparams (hbody n (hw.enterBody kind params) (.ofParams kind params Γ)).1

theorem methods_nil (hle : lo ≤ hi) : Told lo hi (.methods []) := fun _ _ _ _ => .nil hle rfl

theorem methods_cons {params : List Token} {body : List (Stmt Unit)} {ms : List (Method Unit)}
    (name : Token) (hroutine : Told lo mid (.routine params body))
    (hms : Told mid hi (.methods ms)) : Told lo hi (.methods (.mk name params body :: ms)) := by
  intro n w Γ hw
  have hat := Method.at_resolveAll [.mk name params (Stmt.labelAll body n).1] hw
  exact .cons (q := fun m : Method Nat => (m.node Γ).2.Everywhere Node.Straight (m.node Γ).1)
    (x := Method.mk name params (Stmt.labelAll body n).1)
    (hroutine n (.ofMethod name) w.body hw) (hms (Stmt.labelAll body n).2 hat)

end Phrase.Told

namespace Stmt

variable {lo mid hi lo' : Nat} {e step : Expr Unit} {s s' body : Stmt Unit} {ss : List (Stmt Unit)}

theorem ToldAll.nil (hle : lo ≤ hi) : ToldAll lo hi [] :=
  fun _ _ _ _ _ => ⟨(Tells.step hle rfl).leaf trivial rfl, trivial⟩

theorem ToldAll.cons (hs : s.Told lo mid) (hss : ToldAll mid hi ss) : ToldAll lo hi (s :: ss) := by
  intro n w Γ h hΓ
  have hfirst := (hs n h hΓ).1
  have hat := (s.label n).1.at_resolve h hΓ
  have hrest := (hss (s.label n).2 hat (hΓ.after _)).1
  refine ⟨(hfirst.seq hrest).two trivial rfl, ?_⟩
  change Consecutive Γ ((s.label n).1 :: (Stmt.labelAll ss (s.label n).2).1)
  unfold Consecutive
  split
  · next body step heq =>
    obtain ⟨hbody, htail⟩ := List.cons.inj heq
    rw [htail] at hrest
    rw [hbody] at hfirst hrest hat
    have hreports := body.reports_resolve h hΓ
    exact hfirst.allBefore hrest hreports (step.reports_resolve hat)
  · trivial

theorem Told.widen {hi' : Nat} (h : s.Told lo hi) (hlo : lo' ≤ lo) (hhi : hi ≤ hi') :
    s.Told lo' hi' :=
  fun n _ _ hw hΓ => ⟨(h n hw hΓ).1.widen hlo hhi, (h n hw hΓ).2⟩

theorem Told.block (hss : ToldAll lo hi ss) : Told lo hi (.block ss) := by
  intro n w Γ h hΓ
  obtain ⟨htells, hconsecutive⟩ := hss n h.openScope (.block Γ)
  exact ⟨(htells.congr rfl rfl).one trivial rfl, fun _ => hconsecutive⟩

theorem Told.varInit {name : Token} (hlo : lo ≤ name.line) (he : e.Told name.line hi) :
    Told lo hi (.var name (some e)) := by
  intro n w Γ h hΓ
  have hdeclare := Tells.declare w hlo (Nat.le_refl name.line)
  have hinit := he n (h.declare hΓ name)
  have hdefine := (hdeclare.behind hinit).before (.enter _ name.lexeme true (Nat.le_refl hi))
  exact ⟨hdefine.one trivial rfl, fun _ => trivial⟩

theorem Told.cond (he : e.Told lo mid) (hs : s.Told mid hi) : Told lo hi (.cond e s none) := by
  intro n w Γ h hΓ
  have hthen := (hs (e.label n).2 ((e.label n).1.at_resolve h) hΓ).1
  exact ⟨((he n h).seq hthen).two trivial rfl, fun _ => trivial⟩

theorem Told.condElse (he : e.Told lo lo') (hs : s.Told lo' mid) (hs' : s'.Told mid hi) :
    Told lo hi (.cond e s (some s')) := by
  intro n w Γ h hΓ
  have hat := (e.label n).1.at_resolve h
  have hthen := (hs (e.label n).2 hat hΓ).1
  have hat' := (s.label (e.label n).2).1.at_resolve hat hΓ
  have helse := (hs' (s.label (e.label n).2).2 hat' (hΓ.after _)).1
  refine ⟨(((he n h).seq hthen).seq helse).iff ⟨?_, fun h => ?_⟩, fun _ => trivial⟩
  · rintro ⟨⟨htest, hthen⟩, helse⟩
    exact .intro trivial (List.forall_mem_cons.2 ⟨htest, List.forall_mem_cons.2
      ⟨hthen, List.forall_mem_singleton.2 helse⟩⟩)
  · exact ⟨⟨h.child (.head _), h.child (.tail _ (.head _))⟩,
      h.child (.tail _ (.tail _ (.head _)))⟩

theorem Told.function {name : Token} {params : List Token} {body : List (Stmt Unit)}
    (hlo : lo ≤ name.line) (hroutine : Phrase.Told name.line hi (.routine params body)) :
    Told lo hi (.function name params body) := by
  intro n w Γ h hΓ
  have hintroduce := Tells.introduce w hlo (Nat.le_refl name.line)
  have hbody := hroutine n .function w.body (h.introduce name)
  exact ⟨(hintroduce.behind hbody).one trivial rfl, fun _ => trivial⟩

theorem Told.ret {keyword : Token} {value : Option (Expr Unit)} (hlo : lo ≤ keyword.line)
    (hhi : keyword.line ≤ hi) (hvalue : ∀ e ∈ value, e.Told keyword.line hi) :
    Told lo hi (.ret keyword value) := by
  intro n w Γ h hΓ
  cases value with
  | none => exact ⟨(Tells.checkReturn w false hlo hhi).leaf trivial rfl, fun _ => trivial⟩
  | some e =>
    have hcheck := Tells.checkReturn w true hlo (Nat.le_refl keyword.line)
    have hreturned := hvalue e rfl n (h.checkReturn keyword true)
    exact ⟨(hcheck.behind hreturned).one trivial rfl, fun _ => trivial⟩

theorem Told.classDecl {name : Token} {ms : List (Method Unit)} (hlo : lo ≤ name.line)
    (hms : Phrase.Told name.line hi (.methods ms)) : Told lo hi (.classDecl name none ms) := by
  intro n w Γ h hΓ
  have henter := Tells.enterClass w name none ⟨hlo, Nat.le_refl name.line⟩
  have hmethods := hms n (h.enterClass hΓ name none)
  refine ⟨((henter.behind hmethods).leaveClass false w.cls).iff ⟨fun h => ?_, fun h => ?_⟩,
    fun _ => trivial⟩
  · exact .intro trivial (List.forall_mem_map.2 h)
  · exact fun m hm => h.child (List.mem_map_of_mem hm)

theorem Told.subclass {name superclass : Token} {ms : List (Method Unit)} (hlo : lo ≤ name.line)
    (hle : name.line ≤ superclass.line) (hms : Phrase.Told superclass.line hi (.methods ms)) :
    Told lo hi (.classDecl name (some ⟨(), superclass⟩) ms) := by
  intro n w Γ h hΓ
  have henter := Tells.enterClass w name (some ⟨n, superclass⟩) ⟨hlo, hle, Nat.le_refl _⟩
  have hmethods := hms (n + 1) (h.enterClass hΓ name (some ⟨n, superclass⟩))
  refine ⟨((henter.behind hmethods).leaveClass true w.cls).iff ⟨fun h => ?_, fun h => ?_⟩,
    fun _ => trivial⟩
  · exact .intro trivial (List.forall_mem_cons.2 ⟨.leaf trivial rfl, List.forall_mem_map.2 h⟩)
  · exact fun m hm => h.child (.tail _ (List.mem_map.2 ⟨m, hm, rfl⟩))

theorem Told.loop (he : e.Told lo mid) (hbody : body.Told mid hi) : Told lo hi (.loop e body) := by
  intro n w Γ h hΓ
  obtain ⟨htells, hstraight⟩ := hbody (e.label n).2 ((e.label n).1.at_resolve h) hΓ
  exact ⟨((he n h).seq htells).two (hstraight _) rfl, fun _ => trivial⟩

/-- The step of a `for` loop, which the text has in front of the body, is resolved behind it. -/
theorem Told.loopStep (he : e.Told lo lo') (hstep : step.Told lo' mid) (hbody : body.Told mid hi) :
    Told lo hi (.loop e (.block [body, .expression step])) := by
  intro n w Γ h hΓ
  have hopen := ((e.label n).1.at_resolve h).openScope
  have htellsBody := (hbody (e.label n).2 hopen (.block Γ)).1
  have hat := (body.label (e.label n).2).1.at_resolve hopen (.block Γ)
  have htellsStep := hstep (body.label (e.label n).2).2 hat
  have hboth := htellsBody.overtake htellsStep
    ((body.label (e.label n).2).1.reports_resolve hopen (.block Γ))
    ((step.label _).1.reports_resolve hat)
  have hall := (he n h).seq (hboth.congr rfl rfl)
  exact ⟨hall.iff Node.everywhere_loopStep.symm, fun _ => trivial⟩

theorem Told.forLoop {init : Option (Stmt Unit)} {test step : Option (Expr Unit)} {m₁ m₂ m₃ : Nat}
    (hinit : ∀ s ∈ init, s.Told lo m₁) (htest : ∀ e ∈ test, e.Told m₁ m₂)
    (hstep : ∀ e ∈ step, e.Told m₂ m₃) (hbody : body.Told m₃ hi) (h₁ : lo ≤ m₁) (h₂ : m₁ ≤ m₂)
    (h₃ : m₂ ≤ m₃) : Told lo hi (.forLoop init test step body) := by
  have htest' : (test.getD (.literal .true)).Told m₁ m₂ := by
    cases test with
    | none => exact fun _ _ _ _ => (Tells.step h₂ rfl).leaf trivial rfl
    | some e => exact htest e rfl
  have hloop : Told m₁ hi (.forLoop none test step body) := by
    cases step with
    | none => exact .loop htest' (hbody.widen h₃ (Nat.le_refl hi))
    | some e => exact .loopStep htest' (hstep e rfl) hbody
  cases init with
  | none => exact hloop.widen h₁ (Nat.le_refl hi)
  | some s =>
    have hle : hi ≤ hi := Nat.le_refl hi
    exact .block (.cons (hinit s rfl) (.cons hloop (.nil hle)))

end Stmt

/-! ## Phrases -/

/-- **What resolving a phrase reports is on the lines of its tokens, and in the order of lines if
and only if all nodes are straight**, by induction on how the phrase is laid. -/
theorem Laid.told {p : Phrase} {ts : List Token} (h : Laid p ts) :
    ∀ {lo hi : Nat}, Span lo hi ts → p.Told lo hi := by
  induction h with
  | literal => exact fun h _ _ _ _ => (Tells.step (Span.le h) rfl).leaf trivial rfl
  | ref => exact fun h _ w _ _ => (Tells.read w h.1 h.2).leaf trivial rfl
  | this => exact fun h _ w _ _ => (Tells.readThis w h.1 h.2).leaf trivial rfl
  | super => exact fun h _ w _ _ => (Tells.readSuper w h.1 (Span.le h.2)).leaf trivial rfl
  | group hl he hr ih => exact fun h n _ _ hw => (ih h.skip.init n hw).one trivial rfl
  | unary hop he ih => exact fun h n _ _ hw => (ih h.skip n hw).one trivial rfl
  | @binary op a b u v level hop hlevel ha hb iha ihb =>
    intro lo hi h
    obtain ⟨mid, hu, hv⟩ := Token.span_append.1 h
    exact .binary op (iha hu) (ihb hv.skip)
  | @logical op a b u v hop ha hb iha ihb =>
    intro lo hi h
    obtain ⟨mid, hu, hv⟩ := Token.span_append.1 h
    exact .logical op (iha hu) (ihb hv.skip)
  | assign ht hequals he ih => exact fun h => .assign _ (ih h.skip.skip)
  | @call l paren f es u v hf hl hes hparen ihf ihes =>
    intro lo hi h
    obtain ⟨mid, hu, hv⟩ := Token.span_append.1 h
    exact .call paren (ihf hu) (ihes hv.skip.init)
  | get he hdot hname ih => exact fun h n _ _ hw => (ih h.init n hw).one trivial rfl
  | @set dot name equals a b u v ha hdot hname hequals hb iha ihb =>
    intro lo hi h
    obtain ⟨mid, hu, hv⟩ := Token.span_append.1 h
    exact .set name (iha hu) (ihb hv.skip.skip.skip)
  | lambda ht hl hroutine ih =>
    exact fun h n w _ hw => (ih h.skip.skip n .function w.body hw).one trivial rfl
  | none => nofun
  | some he ih =>
    rintro lo hi h _ ⟨⟩
    exact ih h
  | noArgs => exact fun h => .args_nil h
  | oneArg he ih => exact fun h => .args_cons (ih h) (.args_nil (Nat.le_refl _))
  | moreArgs he hcomma hes ihe ihes =>
    intro lo hi h
    obtain ⟨mid, hu, hv⟩ := Token.span_append.1 h
    exact .args_cons (ihe hu) (ihes hv.skip)
  | noParams | oneParam => exact fun h => h
  | moreParams hp hcomma hps ih => exact fun h => ⟨h.1, ih h.2.skip⟩
  | routine hparams hr hleft hbody hright ihparams ihbody =>
    intro lo hi h
    obtain ⟨mid, hu, hv⟩ := Token.span_append.1 h
    exact .routine (ihparams hu) (ihbody hv.skip.skip.init)
  | expression he hsemicolon ih =>
    exact fun h n _ _ hw _ => ⟨(ih h.init n hw).one trivial rfl, fun _ => trivial⟩
  | print ht he hsemicolon ih =>
    exact fun h n _ _ hw _ => ⟨(ih h.skip.init n hw).one trivial rfl, fun _ => trivial⟩
  | var ht hname hsemicolon =>
    intro lo hi h n w Γ hw hΓ
    have htells := Tells.introduce w h.skip.1 h.skip.2.le
    exact ⟨htells.leaf trivial rfl, fun _ => trivial⟩
  | varInit ht hname hequals he hsemicolon ih =>
    exact fun h => .varInit h.skip.1 (ih h.skip.2.skip.init)
  | block hleft hbody hright ih => exact fun h => .block (ih h.skip.init)
  | cond ht hl he hr hyes hdeclared ihe ihyes =>
    intro lo hi h
    obtain ⟨mid, hu, hv⟩ := Token.span_append.1 h.skip.skip
    exact .cond (ihe hu) (ihyes hv.skip)
  | condElse ht hl he hr hyes hdeclared ht' hno hdeclared' ihe ihyes ihno =>
    intro lo hi h
    obtain ⟨m₁, hu, h⟩ := Token.span_append.1 h.skip.skip
    obtain ⟨m₂, hv, hx⟩ := Token.span_append.1 h.skip
    exact .condElse (ihe hu) (ihyes hv) (ihno hx.skip)
  | loop ht hl he hr hbody hdeclared ihe ihbody =>
    intro lo hi h
    obtain ⟨mid, hu, hv⟩ := Token.span_append.1 h.skip.skip
    exact .loop (ihe hu) (ihbody hv.skip)
  | noStart => nofun
  | start hs ih =>
    rintro lo hi h _ ⟨⟩
    exact ih h
  | forLoop ht hl hinit htest hsemicolon hstep hr hbody hdeclared ihinit ihtest ihstep ihbody =>
    intro lo hi h
    obtain ⟨m₁, hu, h⟩ := Token.span_append.1 h.skip.skip
    obtain ⟨m₂, hv, h⟩ := Token.span_append.1 h
    obtain ⟨m₃, hx, hy⟩ := Token.span_append.1 h.skip
    exact .forLoop (ihinit hu) (ihtest hv) (ihstep hx) (ihbody hy.skip) hu.le hv.le hx.le
  | function ht hname hl hroutine ih => exact fun h => .function h.skip.1 (ih h.skip.2.skip)
  | ret ht hvalue hsemicolon ih => exact fun h => .ret h.1 h.2.le (ih h.2.init)
  | classDecl ht hname hleft hms hright ih =>
    exact fun h => .classDecl h.skip.1 (ih h.skip.2.skip.init)
  | subclass ht hname hless hs hleft hms hright ih =>
    exact fun h => .subclass h.skip.1 h.skip.2.skip.1 (ih h.skip.2.skip.2.skip.init)
  | nil => exact fun h => .nil h
  | cons hs hss ihs ihss =>
    intro lo hi h
    obtain ⟨mid, hu, hv⟩ := Token.span_append.1 h
    exact .cons (ihs hu) (ihss hv)
  | noMethods => exact fun h => .methods_nil h
  | method hname hl hroutine hms ihroutine ihms =>
    intro lo hi h
    obtain ⟨mid, hu, hv⟩ := Token.span_append.1 h.skip.skip
    exact .methods_cons _ (ihroutine hu) (ihms hv)

end LoxLang
