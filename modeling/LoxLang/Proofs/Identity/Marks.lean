import LoxLang.Scope
import LoxLang.Tree.Label
import Mathlib.Algebra.Order.BigOperators.Group.List
import Mathlib.Algebra.Order.Group.Nat

/-!
# The marks of a tree

`Expr.marks` lists the marks of the sites of an expression in the order in which `Expr.label`
numbers them. What replaces the marks of a tree matters only on these (`Expr.map_congr`), and every
tree is the numbered tree with its own marks in the place of the numbers (`Expr.map_label_marks`).
-/

namespace LoxLang

variable {σ τ υ : Type}

mutual

/-- The marks of the sites of an expression. -/
def Expr.marks : Expr σ → List σ
  | .literal _ => []
  | .group e | .unary _ e | .get e _ => e.marks
  | .binary _ a b | .logical _ a b | .set a _ b => a.marks ++ b.marks
  | .ref s | .this s | .super s _ => [s.mark]
  | .assign s e => s.mark :: e.marks
  | .call f _ args => f.marks ++ Expr.marksAll args
  | .lambda _ body => Stmt.marksAll body

/-- The marks of the sites of expressions. -/
def Expr.marksAll : List (Expr σ) → List σ
  | [] => []
  | e :: es => e.marks ++ Expr.marksAll es

/-- The marks of the sites of a statement. -/
def Stmt.marks : Stmt σ → List σ
  | .expression e | .print e | .var _ (some e) | .ret _ (some e) => e.marks
  | .var _ none | .ret _ none => []
  | .block body | .function _ _ body => Stmt.marksAll body
  | .cond e yes none => e.marks ++ yes.marks
  | .cond e yes (some no) => e.marks ++ (yes.marks ++ no.marks)
  | .loop e body => e.marks ++ body.marks
  | .classDecl _ none methods => Method.marksAll methods
  | .classDecl _ (some s) methods => s.mark :: Method.marksAll methods

/-- The marks of the sites of statements. -/
def Stmt.marksAll : List (Stmt σ) → List σ
  | [] => []
  | s :: ss => s.marks ++ Stmt.marksAll ss

/-- The marks of the sites of methods. -/
def Method.marksAll : List (Method σ) → List σ
  | [] => []
  | .mk _ _ body :: ms => Stmt.marksAll body ++ Method.marksAll ms

end

/-- The marks of the sites of a line. -/
def Line.marks (line : Line σ) : List σ :=
  Stmt.marksAll line.statements ++ Expr.marksAll line.trailing.toList

/-! ## Replacing marks -/

section Congruence

variable {f g : σ → τ}

/-- Functions that agree on two lists agree on each. -/
private theorem agree_append {xs ys : List σ} (h : ∀ k ∈ xs ++ ys, f k = g k) :
    (∀ k ∈ xs, f k = g k) ∧ ∀ k ∈ ys, f k = g k :=
  List.forall_mem_append.1 h

theorem Site.map_congr {s : Site σ} (h : f s.mark = g s.mark) : s.map f = s.map g :=
  congrArg (Site.mk · s.name) h

mutual

/-- Only the images of the marks of a tree matter. -/
theorem Expr.map_congr : ∀ e : Expr σ, (∀ k ∈ e.marks, f k = g k) → e.map f = e.map g
  | .literal _, _ => rfl
  | .group e, h => congrArg Expr.group (e.map_congr h)
  | .unary op e, h => congrArg (Expr.unary op) (e.map_congr h)
  | .get e name, h => congrArg (Expr.get · name) (e.map_congr h)
  | .binary op a b, h =>
    congrArg₂ (Expr.binary op) (a.map_congr (agree_append h).1) (b.map_congr (agree_append h).2)
  | .logical op a b, h =>
    congrArg₂ (Expr.logical op) (a.map_congr (agree_append h).1) (b.map_congr (agree_append h).2)
  | .set a name b, h =>
    congrArg₂ (Expr.set · name ·) (a.map_congr (agree_append h).1) (b.map_congr (agree_append h).2)
  | .ref _, h => congrArg Expr.ref (Site.map_congr (h _ (.head _)))
  | .this _, h => congrArg Expr.this (Site.map_congr (h _ (.head _)))
  | .super _ m, h => congrArg (Expr.super · m) (Site.map_congr (h _ (.head _)))
  | .assign _ e, h =>
    congrArg₂ Expr.assign (Site.map_congr (h _ (.head _)))
      (e.map_congr fun k hk => h k (.tail _ hk))
  | .call c paren args, h =>
    congrArg₂ (Expr.call · paren ·) (c.map_congr (agree_append h).1)
      (Expr.mapAll_congr args (agree_append h).2)
  | .lambda params body, h => congrArg (Expr.lambda params) (Stmt.mapAll_congr body h)

theorem Expr.mapAll_congr : ∀ es : List (Expr σ), (∀ k ∈ Expr.marksAll es, f k = g k) →
    Expr.mapAll f es = Expr.mapAll g es
  | [], _ => rfl
  | e :: es, h =>
    congrArg₂ List.cons (e.map_congr (agree_append h).1) (Expr.mapAll_congr es (agree_append h).2)

theorem Stmt.map_congr : ∀ s : Stmt σ, (∀ k ∈ s.marks, f k = g k) → s.map f = s.map g
  | .expression e, h => congrArg Stmt.expression (e.map_congr h)
  | .print e, h => congrArg Stmt.print (e.map_congr h)
  | .var _ none, _ | .ret _ none, _ => rfl
  | .var name (some e), h => congrArg (Stmt.var name <| some ·) (e.map_congr h)
  | .ret keyword (some e), h => congrArg (Stmt.ret keyword <| some ·) (e.map_congr h)
  | .block body, h => congrArg Stmt.block (Stmt.mapAll_congr body h)
  | .function name params body, h =>
    congrArg (Stmt.function name params) (Stmt.mapAll_congr body h)
  | .cond e yes none, h =>
    congrArg₂ (Stmt.cond · · none) (e.map_congr (agree_append h).1)
      (yes.map_congr (agree_append h).2)
  | .cond e yes (some no), h => by
    obtain ⟨he, hrest⟩ := agree_append h
    obtain ⟨hyes, hno⟩ := agree_append hrest
    change Stmt.cond _ _ _ = Stmt.cond _ _ _
    rw [e.map_congr he, yes.map_congr hyes, no.map_congr hno]
  | .loop e body, h =>
    congrArg₂ Stmt.loop (e.map_congr (agree_append h).1) (body.map_congr (agree_append h).2)
  | .classDecl name none methods, h =>
    congrArg (Stmt.classDecl name none) (Method.mapAll_congr methods h)
  | .classDecl name (some _) methods, h =>
    congrArg₂ (fun s ms => Stmt.classDecl name (some s) ms) (Site.map_congr (h _ (.head _)))
      (Method.mapAll_congr methods fun k hk => h k (.tail _ hk))

theorem Stmt.mapAll_congr : ∀ ss : List (Stmt σ), (∀ k ∈ Stmt.marksAll ss, f k = g k) →
    Stmt.mapAll f ss = Stmt.mapAll g ss
  | [], _ => rfl
  | s :: ss, h =>
    congrArg₂ List.cons (s.map_congr (agree_append h).1) (Stmt.mapAll_congr ss (agree_append h).2)

theorem Method.mapAll_congr : ∀ ms : List (Method σ), (∀ k ∈ Method.marksAll ms, f k = g k) →
    Method.mapAll f ms = Method.mapAll g ms
  | [], _ => rfl
  | .mk name params body :: ms, h =>
    congrArg₂ List.cons
      (congrArg (Method.mk name params) (Stmt.mapAll_congr body (agree_append h).1))
      (Method.mapAll_congr ms (agree_append h).2)

end

theorem Line.map_congr {line : Line σ} (h : ∀ k ∈ line.marks, f k = g k) :
    line.map f = line.map g := by
  obtain ⟨ss, trailing⟩ := line
  obtain ⟨hss, htrailing⟩ := agree_append h
  refine congrArg₂ Line.mk (Stmt.mapAll_congr ss hss) ?_
  cases trailing with
  | none => rfl
  | some e => exact congrArg some (e.map_congr (agree_append htrailing).1)

end Congruence

/-! ## Replacing marks twice -/

section Composition

variable (g : τ → υ) (f : σ → τ)

mutual

theorem Expr.map_map : ∀ e : Expr σ, (e.map f).map g = e.map (g ∘ f)
  | .literal _ | .ref _ | .this _ | .super _ _ => rfl
  | .group e => congrArg Expr.group e.map_map
  | .unary op e => congrArg (Expr.unary op) e.map_map
  | .get e name => congrArg (Expr.get · name) e.map_map
  | .binary op a b => congrArg₂ (Expr.binary op) a.map_map b.map_map
  | .logical op a b => congrArg₂ (Expr.logical op) a.map_map b.map_map
  | .set a name b => congrArg₂ (Expr.set · name ·) a.map_map b.map_map
  | .assign s e => congrArg (Expr.assign (s.map (g ∘ f))) e.map_map
  | .call c paren args => congrArg₂ (Expr.call · paren ·) c.map_map (Expr.mapAll_mapAll args)
  | .lambda params body => congrArg (Expr.lambda params) (Stmt.mapAll_mapAll body)

theorem Expr.mapAll_mapAll : ∀ es : List (Expr σ),
    Expr.mapAll g (Expr.mapAll f es) = Expr.mapAll (g ∘ f) es
  | [] => rfl
  | e :: es => congrArg₂ List.cons e.map_map (Expr.mapAll_mapAll es)

theorem Stmt.map_map : ∀ s : Stmt σ, (s.map f).map g = s.map (g ∘ f)
  | .var _ none | .ret _ none => rfl
  | .expression e => congrArg Stmt.expression e.map_map
  | .print e => congrArg Stmt.print e.map_map
  | .var name (some e) => congrArg (Stmt.var name <| some ·) e.map_map
  | .ret keyword (some e) => congrArg (Stmt.ret keyword <| some ·) e.map_map
  | .block body => congrArg Stmt.block (Stmt.mapAll_mapAll body)
  | .function name params body => congrArg (Stmt.function name params) (Stmt.mapAll_mapAll body)
  | .cond e yes none => congrArg₂ (Stmt.cond · · none) e.map_map yes.map_map
  | .cond e yes (some no) => by
    change Stmt.cond _ _ (some _) = Stmt.cond _ _ (some _)
    rw [e.map_map, yes.map_map, no.map_map]
  | .loop e body => congrArg₂ Stmt.loop e.map_map body.map_map
  | .classDecl name none methods =>
    congrArg (Stmt.classDecl name none) (Method.mapAll_mapAll methods)
  | .classDecl name (some s) methods =>
    congrArg (Stmt.classDecl name (some (s.map (g ∘ f)))) (Method.mapAll_mapAll methods)

theorem Stmt.mapAll_mapAll : ∀ ss : List (Stmt σ),
    Stmt.mapAll g (Stmt.mapAll f ss) = Stmt.mapAll (g ∘ f) ss
  | [] => rfl
  | s :: ss => congrArg₂ List.cons s.map_map (Stmt.mapAll_mapAll ss)

theorem Method.mapAll_mapAll : ∀ ms : List (Method σ),
    Method.mapAll g (Method.mapAll f ms) = Method.mapAll (g ∘ f) ms
  | [] => rfl
  | .mk name params body :: ms =>
    congrArg₂ List.cons (congrArg (Method.mk name params) (Stmt.mapAll_mapAll body))
      (Method.mapAll_mapAll ms)

end

theorem Line.map_map (line : Line σ) : (line.map f).map g = line.map (g ∘ f) := by
  obtain ⟨ss, trailing⟩ := line
  refine congrArg₂ Line.mk (Stmt.mapAll_mapAll g f ss) ?_
  cases trailing with
  | none => rfl
  | some e => exact congrArg some (e.map_map g f)

end Composition

/-! ## Marks in the place of numbers -/

/-- The function gives the entries of a list for the numbers from `n` on. -/
def ListedBy (f : Nat → τ) (n : Nat) : List τ → Prop
  | [] => True
  | x :: xs => f n = x ∧ ListedBy f (n + 1) xs

namespace ListedBy

variable {f : Nat → τ} {n n₁ n₂ : Nat} {x : τ} {xs ys : List τ}

theorem append_iff : ListedBy f n (xs ++ ys) ↔ ListedBy f n xs ∧ ListedBy f (n + xs.length) ys := by
  induction xs generalizing n with
  | nil => exact (iff_of_eq (true_and _)).symm
  | cons x xs ih =>
    rw [List.cons_append, ListedBy, ih, ListedBy, and_assoc, List.length_cons, Nat.add_assoc,
      Nat.add_comm 1]

/-- Two parts of which the second has the numbers behind those of the first. -/
theorem both {P Q : Prop} (h : ListedBy f n (xs ++ ys))
    (hx : ListedBy f n xs → n₁ = n + xs.length ∧ P)
    (hy : ListedBy f n₁ ys → n₂ = n₁ + ys.length ∧ Q) :
    n₂ = n + (xs ++ ys).length ∧ P ∧ Q := by
  obtain ⟨hxs, hys⟩ := append_iff.1 h
  obtain ⟨hnext, hP⟩ := hx hxs
  rw [← hnext] at hys
  obtain ⟨hlast, hQ⟩ := hy hys
  refine ⟨?_, hP, hQ⟩
  rw [hlast, hnext, List.length_append, Nat.add_assoc]

/-- A site and a part behind it. -/
theorem behind {P : Prop} (h : ListedBy f n (x :: xs))
    (hx : ListedBy f (n + 1) xs → n₁ = n + 1 + xs.length ∧ P) :
    n₁ = n + (x :: xs).length ∧ f n = x ∧ P := by
  obtain ⟨hnext, hP⟩ := hx h.2
  refine ⟨?_, h.1, hP⟩
  rw [hnext, List.length_cons, Nat.add_assoc, Nat.add_comm 1]

/-- A function that gives the entries by their positions. -/
theorem of_getElem? (h : ∀ i x, xs[i]? = some x → f (n + i) = x) : ListedBy f n xs := by
  induction xs generalizing n with
  | nil => exact trivial
  | cons x xs ih =>
    refine ⟨h 0 x rfl, ih fun i y hy => ?_⟩
    rw [Nat.add_assoc, Nat.add_comm 1]
    exact h (i + 1) y hy

/-- Every list without repetitions is listed by an injective function. -/
theorem exists_injective {xs : List Nat} (h : xs.Nodup) :
    ∃ f : Nat → Nat, f.Injective ∧ ListedBy f 0 xs := by
  have hle : ∀ k ∈ xs, k ≤ xs.sum := fun k hk => List.le_sum_of_mem hk
  refine ⟨fun i => xs[i]?.getD (xs.sum + 1 + i), fun i j hij => ?_, of_getElem? fun i x hx => ?_⟩
  · dsimp only at hij
    cases hi : xs[i]? with
    | some x =>
      have hx := hle x (List.mem_of_getElem? hi)
      cases hj : xs[j]? with
      | some y =>
        rw [hi, hj] at hij
        refine (List.getElem?_inj (List.getElem?_eq_some_iff.1 hi).1 h).1 ?_
        rw [hi, hj]
        exact congrArg some hij
      | none =>
        rw [hi, hj] at hij
        simp only [Option.getD] at hij
        omega
    | none =>
      cases hj : xs[j]? with
      | some y =>
        have hy := hle y (List.mem_of_getElem? hj)
        rw [hi, hj] at hij
        simp only [Option.getD] at hij
        omega
      | none =>
        rw [hi, hj] at hij
        exact Nat.add_left_cancel hij
  · rw [Nat.zero_add, hx, Option.getD_some]

/-- A function that keeps the entries may be put behind. -/
theorem comp {g : τ → τ} (h : ListedBy f n xs) (hg : ∀ x ∈ xs, g x = x) :
    ListedBy (g ∘ f) n xs := by
  induction xs generalizing n with
  | nil => exact trivial
  | cons x xs ih =>
    obtain ⟨hx, hxs⟩ := List.forall_mem_cons.1 hg
    exact ⟨(congrArg g h.1).trans hx, ih h.2 hxs⟩

end ListedBy

section Numbers

variable {f : Nat → τ}

theorem Site.map_number {s : Site τ} {n : Nat} (h : f n = s.mark) : Site.map f ⟨n, s.name⟩ = s :=
  congrArg (Site.mk · s.name) h

mutual

/-- **A tree is numbered from its text, with its marks in the place of the numbers.** Also says that
as many numbers are used as there are marks. -/
theorem Expr.map_label_marks : ∀ (e : Expr τ) (n : Nat), ListedBy f n e.marks →
    ((e.map fun _ => ()).label n).2 = n + e.marks.length ∧
      ((e.map fun _ => ()).label n).1.map f = e
  | .literal _, _, _ => ⟨rfl, rfl⟩
  | .group e, n, h => (e.map_label_marks n h).imp_right (congrArg Expr.group)
  | .unary op e, n, h => (e.map_label_marks n h).imp_right (congrArg (Expr.unary op))
  | .get e name, n, h => (e.map_label_marks n h).imp_right (congrArg (Expr.get · name))
  | .binary op a b, n, h =>
    (h.both (a.map_label_marks n) (b.map_label_marks _)).imp_right
      fun h => congrArg₂ (Expr.binary op) h.1 h.2
  | .logical op a b, n, h =>
    (h.both (a.map_label_marks n) (b.map_label_marks _)).imp_right
      fun h => congrArg₂ (Expr.logical op) h.1 h.2
  | .set a name b, n, h =>
    (h.both (a.map_label_marks n) (b.map_label_marks _)).imp_right
      fun h => congrArg₂ (Expr.set · name ·) h.1 h.2
  | .ref _, _, h => ⟨rfl, congrArg Expr.ref (Site.map_number h.1)⟩
  | .this _, _, h => ⟨rfl, congrArg Expr.this (Site.map_number h.1)⟩
  | .super _ m, _, h => ⟨rfl, congrArg (Expr.super · m) (Site.map_number h.1)⟩
  | .assign _ e, n, h =>
    (h.behind (e.map_label_marks (n + 1))).imp_right
      fun h => congrArg₂ Expr.assign (Site.map_number h.1) h.2
  | .call c paren args, n, h =>
    (h.both (c.map_label_marks n) (Expr.mapAll_label_marks args _)).imp_right
      fun h => congrArg₂ (Expr.call · paren ·) h.1 h.2
  | .lambda params body, n, h =>
    (Stmt.mapAll_label_marks body n h).imp_right (congrArg (Expr.lambda params))

theorem Expr.mapAll_label_marks : ∀ (es : List (Expr τ)) (n : Nat),
    ListedBy f n (Expr.marksAll es) →
    (Expr.labelAll (Expr.mapAll (fun _ => ()) es) n).2 = n + (Expr.marksAll es).length ∧
      Expr.mapAll f (Expr.labelAll (Expr.mapAll (fun _ => ()) es) n).1 = es
  | [], _, _ => ⟨rfl, rfl⟩
  | e :: es, n, h =>
    (h.both (e.map_label_marks n) (Expr.mapAll_label_marks es _)).imp_right
      fun h => congrArg₂ List.cons h.1 h.2

theorem Stmt.map_label_marks : ∀ (s : Stmt τ) (n : Nat), ListedBy f n s.marks →
    ((s.map fun _ => ()).label n).2 = n + s.marks.length ∧
      ((s.map fun _ => ()).label n).1.map f = s
  | .expression e, n, h => (e.map_label_marks n h).imp_right (congrArg Stmt.expression)
  | .print e, n, h => (e.map_label_marks n h).imp_right (congrArg Stmt.print)
  | .var _ none, _, _ | .ret _ none, _, _ => ⟨rfl, rfl⟩
  | .var name (some e), n, h =>
    (e.map_label_marks n h).imp_right (congrArg (Stmt.var name <| some ·))
  | .ret keyword (some e), n, h =>
    (e.map_label_marks n h).imp_right (congrArg (Stmt.ret keyword <| some ·))
  | .block body, n, h => (Stmt.mapAll_label_marks body n h).imp_right (congrArg Stmt.block)
  | .function name params body, n, h =>
    (Stmt.mapAll_label_marks body n h).imp_right (congrArg (Stmt.function name params))
  | .cond e yes none, n, h =>
    (h.both (e.map_label_marks n) (yes.map_label_marks _)).imp_right
      fun h => congrArg₂ (Stmt.cond · · none) h.1 h.2
  | .cond e yes (some no), n, h =>
    (h.both (e.map_label_marks n) fun h => h.both (yes.map_label_marks _)
      (no.map_label_marks _)).imp_right fun h => by
        change Stmt.cond _ _ (some _) = _
        rw [h.1, h.2.1, h.2.2]
  | .loop e body, n, h =>
    (h.both (e.map_label_marks n) (body.map_label_marks _)).imp_right
      fun h => congrArg₂ Stmt.loop h.1 h.2
  | .classDecl name none methods, n, h =>
    (Method.mapAll_label_marks methods n h).imp_right (congrArg (Stmt.classDecl name none))
  | .classDecl name (some _) methods, n, h =>
    (h.behind (Method.mapAll_label_marks methods (n + 1))).imp_right
      fun h => congrArg₂ (fun s ms => Stmt.classDecl name (some s) ms) (Site.map_number h.1) h.2

theorem Stmt.mapAll_label_marks : ∀ (ss : List (Stmt τ)) (n : Nat),
    ListedBy f n (Stmt.marksAll ss) →
    (Stmt.labelAll (Stmt.mapAll (fun _ => ()) ss) n).2 = n + (Stmt.marksAll ss).length ∧
      Stmt.mapAll f (Stmt.labelAll (Stmt.mapAll (fun _ => ()) ss) n).1 = ss
  | [], _, _ => ⟨rfl, rfl⟩
  | s :: ss, n, h =>
    (h.both (s.map_label_marks n) (Stmt.mapAll_label_marks ss _)).imp_right
      fun h => congrArg₂ List.cons h.1 h.2

theorem Method.mapAll_label_marks : ∀ (ms : List (Method τ)) (n : Nat),
    ListedBy f n (Method.marksAll ms) →
    (Method.labelAll (Method.mapAll (fun _ => ()) ms) n).2 = n + (Method.marksAll ms).length ∧
      Method.mapAll f (Method.labelAll (Method.mapAll (fun _ => ()) ms) n).1 = ms
  | [], _, _ => ⟨rfl, rfl⟩
  | .mk name params body :: ms, n, h =>
    (h.both (Stmt.mapAll_label_marks body n) (Method.mapAll_label_marks ms _)).imp_right
      fun h => congrArg₂ List.cons (congrArg (Method.mk name params) h.1) h.2

end

theorem Line.map_label_marks (line : Line τ) (n : Nat) (h : ListedBy f n line.marks) :
    ((line.map fun _ => ()).label n).2 = n + line.marks.length ∧
      ((line.map fun _ => ()).label n).1.map f = line := by
  obtain ⟨ss, trailing⟩ := line
  obtain ⟨hnext, hss, htrailing⟩ := h.both (Stmt.mapAll_label_marks ss n)
    (Expr.mapAll_label_marks trailing.toList _)
  cases trailing with
  | none => exact ⟨hnext, congrArg (Line.mk · none) hss⟩
  | some e =>
    exact ⟨hnext, congrArg₂ (Line.mk · <| some ·) hss (List.cons.inj htrailing).1⟩

end Numbers

/-- A function that keeps the marks of a line keeps the line. -/
theorem Line.map_eq_self {line : Line Nat} {f : Nat → Nat} (h : ∀ k ∈ line.marks, f k = k) :
    line.map f = line := by
  have hlisted : ListedBy (fun i => line.marks[i]?.getD 0) 0 line.marks :=
    .of_getElem? fun i x hx => by rw [Nat.zero_add, hx, Option.getD_some]
  rw [← (line.map_label_marks 0 hlisted).2, Line.map_map, (line.map_label_marks 0 hlisted).2]
  exact (line.map_label_marks 0 (hlisted.comp h)).2

end LoxLang
