import LoxLang.Proofs.Loops.Binding
import LoxLang.Proofs.Safety.Accepted

/-!
# Scopes that are left out

A block in which nothing is declared may be left out of a text: its scope is empty, so no site is
bound to it, and the sites inside it just lose one scope of their distance. `Gaps` tell which of the
scopes around a point are left out, `Gaps.thin` are the scopes that stay, and `Gaps.close` is the
distance of a scope that stays among those that do (`Gaps.In.distance?`). The scope of a receiver is
never left out, so it still stands right inside that of the superclass (`Gaps.In.super`).
-/

namespace LoxLang

/-- Which of the scopes around a point are left out, from the innermost out. Behind the end of the
list none is. -/
abbrev Gaps := List Bool

namespace Gaps

/-- Whether the innermost scope is left out. -/
def here : Gaps → Bool
  | [] => false
  | gap :: _ => gap

/-- The scope at a distance stays. -/
def Keeps (δ : Gaps) (d : Nat) : Prop := here (δ.drop d) = false

/-- How many of the scopes in front of a distance stay. -/
def close : Gaps → Nat → Nat
  | [], d => d
  | _ :: _, 0 => 0
  | true :: δ, d + 1 => close δ d
  | false :: δ, d + 1 => close δ d + 1

/-- The scopes that stay. -/
def thin : Gaps → Scopes → Scopes
  | [], scopes => scopes
  | _ :: _, [] => []
  | true :: δ, _ :: scopes => thin δ scopes
  | false :: δ, names :: scopes => names :: thin δ scopes

/-- In the context, the scopes that are left out are those of blocks that declare nothing. -/
inductive In : Gaps → Context → Prop
  | whole (Γ : Context) : In [] Γ
  | gap {δ : Gaps} {Γ : Context} : In δ Γ → In (true :: δ) (.block :: Γ)
  | keep {δ : Gaps} {sc : Scope} {Γ : Context} : In δ Γ → In (false :: δ) (sc :: Γ)

variable {δ : Gaps} {Γ : Context}

/-! ## Distances -/

/-- One scope that stays makes one step. -/
theorem close_succ {d : Nat} (h : δ.Keeps d) : δ.close (d + 1) = δ.close d + 1 := by
  induction d generalizing δ with
  | zero =>
    cases δ with
    | nil => rfl
    | cons gap δ =>
      cases gap with
      | true => cases h
      | false => cases δ <;> rfl
  | succ d ih =>
    cases δ with
    | nil => rfl
    | cons gap δ =>
      have hd := ih (δ := δ) h
      cases gap with
      | true => exact hd
      | false => exact congrArg (· + 1) hd

/-- A name is found in the same scope, whether scopes without names are left out or not. -/
theorem In.distance? (h : δ.In Γ) (x : String) :
    (Γ.distance? x = none ∧ (δ.thin Γ.names).distance? x = none) ∨
      ∃ d, Γ.distance? x = some d ∧ δ.Keeps d ∧
        (δ.thin Γ.names).distance? x = some (δ.close d) := by
  induction h with
  | whole Γ =>
    rw [thin, Γ.distance?_names]
    cases Γ.distance? x with
    | none => exact .inl ⟨rfl, rfl⟩
    | some d => exact .inr ⟨d, rfl, by rw [Keeps, List.drop_nil]; rfl, rfl⟩
  | @gap δ Γ _ ih =>
    have hΓ : Context.distance? (.block :: Γ) x = (Γ.distance? x).map (· + 1) := by
      unfold Context.distance?
      rw [List.findIdx?_cons]
      rfl
    rw [hΓ]
    obtain ⟨hd, ht⟩ | ⟨d, hd, hkeeps, ht⟩ := ih
    · exact .inl ⟨by rw [hd]; rfl, ht⟩
    · exact .inr ⟨d + 1, by rw [hd]; rfl, hkeeps, ht⟩
  | @keep δ sc Γ _ ih =>
    rw [Context.names_cons, thin]
    unfold Context.distance? Scopes.distance? at ih ⊢
    rw [List.findIdx?_cons, List.findIdx?_cons]
    by_cases hx : x ∈ sc.names
    · exact .inr ⟨0, by simp [hx], rfl, by simp [hx, close]⟩
    · obtain ⟨hd, ht⟩ | ⟨d, hd, hkeeps, ht⟩ := ih
      · exact .inl ⟨by simp [hx, hd], by simp [hx, ht]⟩
      · exact .inr ⟨d + 1, by simp [hx, hd], hkeeps, by simp [hx, ht, close]⟩

/-- The scope of the receiver stays, right inside that of the superclass. -/
theorem In.super (h : δ.In Γ) (hΓ : Γ.Proper) (hcls : Γ.classKind = .derived) :
    ∃ d, δ.Keeps d ∧ δ.Keeps (d + 1) ∧ Γ.distance? superName = some (d + 1) ∧
      (δ.thin Γ.names).distance? superName = some (δ.close d + 1) := by
  obtain ⟨inner, outer, -, hthis, hsuper⟩ := hΓ.distance?_of_derived hcls
  obtain ⟨hd, -⟩ | ⟨d, hd, hkeeps, -⟩ := h.distance? thisName
  · cases hthis.symm.trans hd
  cases hthis.symm.trans hd
  obtain ⟨hd, -⟩ | ⟨d, hd, hkeeps', ht⟩ := h.distance? superName
  · cases hsuper.symm.trans hd
  cases hsuper.symm.trans hd
  exact ⟨inner.length, hkeeps, hkeeps', hsuper, by rw [ht, close_succ hkeeps]⟩

/-! ## Declarations -/

variable {σ : Type}

/-- The scope in which a name is declared stays. -/
theorem In.declare (h : δ.In Γ) (hhere : δ.here = false) (x : String) :
    δ.In (Γ.declare x) ∧ (δ.thin Γ.names).declare x = δ.thin (Γ.declare x).names := by
  cases h with
  | whole Γ => exact ⟨.whole _, (Context.names_declare Γ x).symm⟩
  | gap => cases hhere
  | keep h => exact ⟨.keep h, rfl⟩

theorem In.begin (h : δ.In Γ) (hhere : δ.here = false) (x : String) :
    δ.In (Γ.begin x) ∧ (δ.thin Γ.names).declare x = δ.thin (Γ.begin x).names := by
  cases h with
  | whole Γ => exact ⟨.whole _, (Context.names_begin Γ x).symm⟩
  | gap => cases hhere
  | keep h => exact ⟨.keep h, rfl⟩

/-- Behind a statement, the same scopes are left out, if the statement declares nothing in one of
them. -/
theorem In.after (h : δ.In Γ) {s : Stmt σ} (hs : δ.here = true → s.declared = []) :
    δ.In (Γ.after s) ∧ (δ.thin Γ.names).after s.bare = δ.thin (Γ.after s).names := by
  have hnames : s.bare.declared = s.declared := s.declared_map _
  unfold Context.after Scopes.after
  rw [hnames]
  cases hhere : δ.here with
  | true =>
    rw [hs hhere]
    exact ⟨h, rfl⟩
  | false =>
    generalize s.declared = names
    induction names generalizing Γ with
    | nil => exact ⟨h, rfl⟩
    | cons x names ih =>
      obtain ⟨hΓ, ht⟩ := h.declare hhere x
      rw [List.foldl_cons, List.foldl_cons, ht]
      exact ih hΓ

/-- The scopes around the methods of a class. -/
theorem In.inClass (h : δ.In Γ) (hhere : δ.here = false) (x : String) (derived : Bool) :
    (δ.thin Γ.names).inClass x derived =
      [thisName] :: ((if derived then [[superName]] else []) ++ δ.thin (Γ.declare x).names) := by
  rw [Scopes.inClass, (h.declare hhere x).2]

end Gaps

end LoxLang
