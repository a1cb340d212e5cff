import LoxLang.Proofs.Run.Session

/-!
# Output with limited room

A run can tell how much room its output has in one way only: by failing when the room does not
suffice. So a run with limited room does what it would do with unlimited room until the bytes no
longer fit, and from then on it does nothing more (`Run.Truncates`). There is a rule for every step
of the machine, and by induction on the fuel every run truncates (`Run.truncatesOn`). A source
prints either everything and has the same outcome, or the bytes that fit and fails
(`limited_output_truncates`).
-/

namespace LoxLang

/-- The machine with another amount of room. -/
def Machine.withRoom (m : Machine) (room : Option Nat) : Machine := { m with room := room }

namespace Run

variable {α β : Type}

theorem extract_of_size_le {W : ByteArray} {n : Nat} (h : W.size ≤ n) : W.extract 0 n = W := by
  refine ByteArray.ext ?_
  rw [ByteArray.data_extract]
  exact Array.extract_eq_self_of_le h

/-- What a run has come to, on the machine with another amount of room. -/
def resultWithRoom (room : Option Nat) : EStateM.Result Fault Machine α →
    EStateM.Result Fault Machine α
  | .ok a m => .ok a (m.withRoom room)
  | .error e m => .error e (m.withRoom room)

/-- With unlimited room the run prints `W` from the machine. With room for `k` bytes it comes to the
same if these suffice; otherwise it fails behind the bytes that fit. -/
structure Prints (r : Run α) (m : Machine) (W : ByteArray) : Prop where
  printed : (r.after m).printed = m.printed ++ W
  room : (r.after m).room = none
  fits : ∀ k, W.size ≤ k →
    r (m.withRoom (some k)) = resultWithRoom (some (k - W.size)) (r m)
  truncated : ∀ k, k < W.size → ∃ m', r (m.withRoom (some k)) = .error .outputFull m' ∧
    m'.printed = m.printed ++ W.extract 0 k

/-- Limited room only truncates what the run prints. -/
def Truncates (r : Run α) : Prop := ∀ m : Machine, m.room = none → ∃ W, Prints r m W

namespace Truncates

variable {r : Run α}

/-! ## Steps -/

/-- What neither prints nor looks at the room. -/
theorem of_silent (hroom : ∀ m room, r (m.withRoom room) = resultWithRoom room (r m))
    (hprinted : ∀ m, (r.after m).printed = m.printed) : Truncates r := by
  intro m hm
  have hsame : (r.after m).room = none := by
    have h := hroom m m.room
    change r m = _ at h
    unfold after
    rw [h]
    cases r m <;> exact hm
  refine ⟨.empty, ⟨?_, hsame, fun k _ => hroom m (some k), fun k hk => absurd hk k.not_lt_zero⟩⟩
  rw [hprinted, ByteArray.append_empty]

theorem pure (a : α) : Truncates (pure a) := of_silent (fun _ _ => rfl) fun _ => rfl

theorem throw (e : Fault) : Truncates (throw e : Run α) := of_silent (fun _ _ => rfl) fun _ => rfl

/-- One run after another prints what both print. If the room is used up in the first, then the
second does not begin. -/
theorem bind {k : α → Run β} (hr : Truncates r) (hk : ∀ a, Truncates (k a)) :
    Truncates (r >>= k) := by
  intro m hm
  obtain ⟨W, h⟩ := hr m hm
  rcases hrm : r m with ⟨a, m₁⟩ | ⟨e, m₁⟩
  · have hprinted := h.printed
    have hroom := h.room
    rw [after_ok hrm] at hprinted hroom
    obtain ⟨V, h'⟩ := hk a m₁ hroom
    have hafter : (r >>= k).after m = (k a).after m₁ := by rw [after, bind_ok hrm, after]
    have hsize : (W ++ V).size = W.size + V.size := ByteArray.size_append
    have hextract : ∀ n, (W ++ V).extract 0 n = W.extract 0 n ++ V.extract 0 (n - W.size) := by
      intro n
      rw [ByteArray.extract_append, Nat.zero_sub]
    refine ⟨W ++ V, ⟨?_, ?_, fun n hn => ?_, fun n hn => ?_⟩⟩
    · rw [hafter, h'.printed, hprinted, ByteArray.append_assoc]
    · rw [hafter, h'.room]
    · have hfits := h.fits n (by omega)
      rw [hrm] at hfits
      rw [bind_ok hfits, bind_ok hrm, h'.fits (n - W.size) (by omega), hsize, Nat.sub_sub]
    · by_cases hW : W.size ≤ n
      · have hfits := h.fits n hW
        rw [hrm] at hfits
        obtain ⟨m', hm', hprinted'⟩ := h'.truncated (n - W.size) (by omega)
        refine ⟨m', (bind_ok hfits).trans hm', ?_⟩
        rw [hprinted', hprinted, hextract, extract_of_size_le hW, ByteArray.append_assoc]
      · obtain ⟨m', hm', hprinted'⟩ := h.truncated n (by omega)
        refine ⟨m', bind_error hm', ?_⟩
        rw [hprinted', hextract, Nat.sub_eq_zero_of_le (by omega), ByteArray.extract_same,
          ByteArray.append_empty]
  · have hafter : (r >>= k).after m = r.after m := by rw [after, bind_error hrm, after, hrm]
    refine ⟨W, ⟨hafter ▸ h.printed, hafter ▸ h.room, fun n hn => ?_, fun n hn => ?_⟩⟩
    · have hfits := h.fits n hn
      rw [hrm] at hfits
      rw [bind_error hfits, bind_error hrm]
      rfl
    · obtain ⟨m', hm', hprinted⟩ := h.truncated n hn
      exact ⟨m', bind_error hm', hprinted⟩

/-- What goes on with the machine, but not with its room. -/
theorem get {k : Machine → Run β} (hroom : ∀ m room, k (m.withRoom room) = k m)
    (hk : ∀ m, Truncates (k m)) : Truncates (MonadState.get >>= k) := by
  intro m hm
  obtain ⟨W, h⟩ := hk m m hm
  have heq : ∀ m : Machine, (MonadState.get >>= k : Run β) m = k m m := fun _ => rfl
  have hafter : (MonadState.get >>= k : Run β).after m = (k m).after m := rfl
  refine ⟨W, ⟨hafter ▸ h.printed, hafter ▸ h.room, fun n hn => ?_, fun n hn => ?_⟩⟩
  · rw [heq, heq, hroom]
    exact h.fits n hn
  · rw [heq, hroom]
    exact h.truncated n hn

/-- What is done around a run without printing or looking at the room. -/
theorem around {r' : Run α} (hr : Truncates r) (enter : Machine → Machine)
    (leave : Machine → Machine → Machine)
    (heq : ∀ m, r' m = match r (enter m) with
      | .ok a m' => .ok a (leave m m')
      | .error e m' => .error e (leave m m'))
    (henter : ∀ m room, enter (m.withRoom room) = (enter m).withRoom room ∧
      (enter m).room = m.room ∧ (enter m).printed = m.printed)
    (hleave : ∀ m m' room room', leave (m.withRoom room) (m'.withRoom room') =
      (leave m m').withRoom room' ∧ (leave m m').room = m'.room ∧
      (leave m m').printed = m'.printed) : Truncates r' := by
  intro m hm
  obtain ⟨W, h⟩ := hr (enter m) ((henter m none).2.1.trans hm)
  have hafter : r'.after m = leave m (r.after (enter m)) := by
    unfold after
    rw [heq]
    cases r (enter m) <;> rfl
  obtain ⟨-, hroom, hprinted⟩ := hleave m (r.after (enter m)) none none
  refine ⟨W, ⟨?_, ?_, fun n hn => ?_, fun n hn => ?_⟩⟩
  · rw [hafter, hprinted, h.printed, (henter m none).2.2]
  · rw [hafter, hroom, h.room]
  · rw [heq, heq, (henter m _).1, h.fits n hn]
    cases r (enter m) with
    | ok a m' => exact congrArg (EStateM.Result.ok a) (hleave m m' _ _).1
    | error e m' => exact congrArg (EStateM.Result.error e) (hleave m m' _ _).1
  · obtain ⟨m', hm', hprinted'⟩ := h.truncated n hn
    refine ⟨leave (m.withRoom (some n)) m', ?_, ?_⟩
    · rw [heq, (henter m _).1, hm']
    · rw [(hleave (m.withRoom (some n)) m' none none).2.2, hprinted', (henter m none).2.2]

theorem inFrame (frame : Nat) (hr : Truncates r) : Truncates (inFrame frame r) :=
  hr.around (fun m => { m with frame := frame }) (fun m m' => { m' with frame := m.frame })
    (fun _ => rfl) (fun _ _ => ⟨rfl, rfl, rfl⟩) fun _ _ _ _ => ⟨rfl, rfl, rfl⟩

theorem inCall (hr : Truncates r) : Truncates (inCall r) :=
  hr.around (fun m => { m with depth := m.depth + 1 })
    (fun _ m' => { m' with depth := m'.depth - 1 }) (fun _ => rfl) (fun _ _ => ⟨rfl, rfl, rfl⟩)
    fun _ _ _ _ => ⟨rfl, rfl, rfl⟩

/-! ## Output -/

/-- A line is printed as a whole, or as much of it as fits. -/
theorem printLine (text : String) : Truncates (printLine text) := by
  intro m hm
  let W := (text ++ "\n").toUTF8
  have hfree : Run.printLine text m = .ok () { m with printed := m.printed ++ W } := by
    rw [printLine_eq, Machine.fits, Machine.write, hm]
    rfl
  have hlimited : ∀ n, Run.printLine text (m.withRoom (some n)) =
      if decide (W.size ≤ n) then .ok () ((m.withRoom (some n)).write W)
      else .error .outputFull ((m.withRoom (some n)).write W) := fun n => printLine_eq _ _
  refine ⟨W, ⟨?_, ?_, fun n hn => ?_, fun n hn => ?_⟩⟩
  · rw [after_ok hfree]
  · rw [after_ok hfree, hm]
  · rw [hlimited, if_pos (decide_eq_true hn), hfree, Machine.write]
    dsimp only [Machine.withRoom]
    rw [extract_of_size_le hn]
    rfl
  · rw [hlimited, if_neg (by simpa using hn)]
    exact ⟨_, rfl, rfl⟩

/-! ## Names -/

theorem lookUp (site : Site (Option Nat)) : Truncates (lookUp site) := by
  refine of_silent (fun m room => ?_) fun m => ?_
  · have hvalue : (m.withRoom room).value? site = m.value? site := rfl
    rw [lookUp_eq, lookUp_eq, hvalue]
    cases m.value? site <;> rfl
  · rw [after, lookUp_eq]
    cases m.value? site <;> rfl

theorem assign (site : Site (Option Nat)) (v : Value) : Truncates (assign site v) := by
  refine of_silent (fun m room => ?_) fun m => ?_
  · have htarget : (m.withRoom room).target? site = m.target? site := rfl
    rw [assign_eq, assign_eq, htarget]
    cases m.target? site <;> rfl
  · rw [after, assign_eq]
    cases m.target? site <;> rfl

/-- That limited room only truncates is kept where runs are put together. -/
theorem compositional : Compositional Truncates where
  pure := .pure
  throw := .throw
  bind := .bind
  get hroom := .get fun m room => hroom m m.printed room
  createFrame _ _ := of_silent (fun _ _ => rfl) fun _ => rfl
  newIdentity := of_silent (fun _ _ => rfl) fun _ => rfl
  define _ _ := of_silent (fun _ _ => rfl) fun _ => rfl
  lookUp := .lookUp
  assign := .assign
  printLine := .printLine
  readClock := of_silent (fun _ _ => rfl) fun _ => rfl
  newObject _ := of_silent (fun _ _ => rfl) fun _ => rfl
  setField _ _ _ := of_silent (fun _ _ => rfl) fun _ => rfl
  inFrame frame hr := .inFrame frame hr
  inCall := .inCall

end Truncates

end Run

/-! ## Sources -/

/-- The session with another amount of room. -/
def Session.withRoom (s : Session) (room : Option Nat) : Session :=
  { s with machine := s.machine.withRoom room }

/-- **Limited room only truncates the output.** Let a source print `W` with unlimited room. With
room for `r` bytes it has the same outcome and leaves the same session, but for the room that is
used up, if `W` has at most `r` bytes. Otherwise it prints the first `r` bytes of `W` and fails,
without a value and with one diagnostic, that the output is full. -/
theorem limited_output_truncates (s : Session) (fuel : Nat) (style : Style) (source : String)
    (r : Nat) :
    let free := (s.withRoom none).step fuel style source
    let limited := (s.withRoom (some r)).step fuel style source
    let W := free.1.printed
    (W.size ≤ r → limited = (free.1, free.2.withRoom (some (r - W.size)))) ∧
    (r < W.size → limited.1.printed = W.extract 0 r ∧
      limited.1.diagnostics = [.output "sink full"] ∧ limited.1.isFailed ∧
      limited.1.value? = none) := by
  dsimp only [Session.withRoom]
  rcases Session.step_cases s.nextSite fuel style source with ⟨ds, next, h⟩ | ⟨code, next, h⟩
  · rw [h, h]
    exact ⟨fun _ => rfl, fun hr => absurd hr r.not_lt_zero⟩
  · rw [h, h]
    let m := (s.machine.withRoom none).unprinted
    obtain ⟨W, hW⟩ := Run.Truncates.compositional.line fuel code m rfl
    have hprinted : ((Session.mk (s.machine.withRoom none) next).perform fuel code).1.printed =
        W := by
      rw [Session.outcome_perform, Outcome.printed_ofResult]
      exact hW.printed.trans ByteArray.empty_append
    rw [hprinted]
    refine ⟨fun hr => ?_, fun hr => ?_⟩
    · have hlimited : Run.line fuel code (s.machine.withRoom (some r)).unprinted = _ := hW.fits r hr
      rw [Session.perform_eq, Session.perform_eq, hlimited]
      cases Run.line fuel code m <;> rfl
    · obtain ⟨m', hlimited, hm'⟩ := hW.truncated r hr
      change Run.line fuel code (s.machine.withRoom (some r)).unprinted = _ at hlimited
      rw [Session.perform_eq, hlimited]
      exact ⟨hm'.trans ByteArray.empty_append, rfl, rfl, rfl⟩

end LoxLang
