import LoxLang.Proofs.Lines.Reline
import LoxLang.Proofs.Run.Frames
import LoxLang.Proofs.Run.Step

/-!
# Machines on other lines

A value holds code where it is a function or a class, and a fault names a line; nothing else in a
machine has to do with lines. `Value.reline f` moves the code in a value, and `Machine.moved f p`
moves all code in a machine and puts the output `p` in front of what it has printed. What a program
can see of a value stays the same: its truth, its text, which values it equals, what the operators
make of it and how it is called.
-/

namespace LoxLang

variable {α β : Type}

/-! ## Tables and stores -/

/-- The table with each value replaced by its image. -/
def Table.map (g : α → β) (t : Table α) : Table β := ⟨t.entries.map fun e => (e.1, g e.2)⟩

namespace Table

@[simp] theorem map_empty (g : α → β) : (empty : Table α).map g = empty := rfl

@[simp] theorem map_single (g : α → β) (name : String) (a : α) :
    (single name a).map g = single name (g a) := rfl

@[simp] theorem find?_map (g : α → β) (t : Table α) (name : String) :
    (t.map g).find? name = (t.find? name).map g := by
  obtain ⟨entries⟩ := t
  change findIn name (entries.map _) = (findIn name entries).map g
  induction entries with
  | nil => rfl
  | cons e entries ih =>
    rw [List.map_cons, findIn, findIn, ih]
    split <;> rfl

@[simp] theorem contains_map (g : α → β) (t : Table α) (name : String) :
    (t.map g).contains name = t.contains name := by
  rw [contains, contains, find?_map, Option.isSome_map]

@[simp] theorem map_insert (g : α → β) (t : Table α) (name : String) (a : α) :
    (t.insert name a).map g = (t.map g).insert name (g a) := by
  obtain ⟨entries⟩ := t
  refine congrArg Table.mk ?_
  change (insertIn name a entries).map _ = insertIn name (g a) (entries.map _)
  induction entries with
  | nil => rfl
  | cons e entries ih =>
    rw [List.map_cons, insertIn, insertIn, ← ih]
    split <;> rfl

end Table

/-- The frame with each value replaced by its image. -/
def Frame.map (g : α → β) (f : Frame α) : Frame β := ⟨f.names.map g, f.parent⟩

/-- The store with each value replaced by its image. -/
def Store.map (g : α → β) (s : Store α) : Store β := ⟨s.frames.map (Frame.map g)⟩

/-- Changing one element and replacing all by their images commute. -/
theorem map_modify (xs : Array α) (i : Nat) (g : α → β) (h : α → α) (h' : β → β)
    (hg : ∀ a, g (h a) = h' (g a)) : (xs.modify i h).map g = (xs.map g).modify i h' := by
  refine Array.ext_getElem? fun j => ?_
  rw [Array.getElem?_map, Array.getElem?_modify, Array.getElem?_modify, Array.getElem?_map]
  split
  · cases xs[j]? with
    | none => rfl
    | some a => exact congrArg some (hg a)
  · rfl

namespace Store

variable (g : α → β) (s : Store α)

theorem getElem?_frames_map (i : Nat) : (s.map g).frames[i]? = s.frames[i]?.map (Frame.map g) :=
  Array.getElem?_map

@[simp] theorem size_frames_map : (s.map g).frames.size = s.frames.size := Array.size_map

@[simp] theorem parent?_map (i : Nat) : (s.map g).parent? i = s.parent? i := by
  rw [parent?, parent?, getElem?_frames_map]
  cases s.frames[i]? <;> rfl

@[simp] theorem get?_map (i : Nat) (name : String) :
    (s.map g).get? i name = (s.get? i name).map g := by
  rw [get?, get?, getElem?_frames_map]
  cases s.frames[i]? with
  | none => rfl
  | some f => exact f.names.find?_map g name

@[simp] theorem map_define (i : Nat) (name : String) (a : α) :
    (s.define i name a).map g = (s.map g).define i name (g a) := by
  have h := map_modify s.frames i (Frame.map g) (fun f => { f with names := f.names.insert name a })
    (fun f => { f with names := f.names.insert name (g a) }) fun f =>
      congrArg (Frame.mk · f.parent) (f.names.map_insert g name a)
  exact congrArg Store.mk h

theorem create_map (names : Table α) (parent : Option Nat) :
    (s.map g).create (names.map g) parent =
      ((s.create names parent).1, (s.create names parent).2.map g) := by
  rw [create, create, size_frames_map, Store.map, Store.map, Array.map_push]
  rfl

@[simp] theorem owner?_map (i : Nat) (name : String) :
    (s.map g).owner? i name = s.owner? i name := by
  fun_induction s.owner? i name with
  | case1 i h => rw [owner?, getElem?_frames_map, h]; rfl
  | case2 i f h hname => rw [owner?, getElem?_frames_map, h]; simp [Frame.map, hname]
  | case3 i f h hname hp => rw [owner?, getElem?_frames_map, h]; simp [Frame.map, hname, hp]
  | case4 i f h hname p hp hlt ih =>
    rw [owner?, getElem?_frames_map, h]
    simp [Frame.map, hname, hp, hlt, ih]
  | case5 i f h hname p hp hlt =>
    rw [owner?, getElem?_frames_map, h]
    simp [Frame.map, hname, hp, hlt]

@[simp] theorem read?_map (i : Nat) (name : String) :
    (s.map g).read? i name = (s.read? i name).map g := by
  rw [read?, read?, owner?_map]
  cases s.owner? i name with
  | none => rfl
  | some o => exact s.get?_map g o name

@[simp] theorem ancestor?_map (d i : Nat) : (s.map g).ancestor? d i = s.ancestor? d i :=
  ancestor?_congr (s.parent?_map g) d i

@[simp] theorem readAt?_map (d i : Nat) (name : String) :
    (s.map g).readAt? d i name = (s.readAt? d i name).map g := by
  rw [readAt?, readAt?, ancestor?_map]
  cases s.ancestor? d i with
  | none => rfl
  | some p => exact s.get?_map g p name

end Store

/-! ## Values -/

variable (f : Nat → Nat)

/-- The routine with its code on the images of its lines. -/
def Routine.reline (r : Routine) : Routine := { r with body := Stmt.relineAll f r.body }

/-- The class with the code of its methods and of its superclass on the images of their lines. -/
def Class.reline : Class → Class
  | ⟨identity, name, none, methods⟩ => ⟨identity, name, none, methods.map (Routine.reline f)⟩
  | ⟨identity, name, some above, methods⟩ =>
    ⟨identity, name, some above.reline, methods.map (Routine.reline f)⟩

/-- The instance with the code of its class on the images of its lines. -/
def Object.reline (o : Object) : Object := ⟨o.address, o.cls.reline f⟩

/-- The value with its code on the images of its lines. -/
def Value.reline : Value → Value
  | .function identity r => .function identity (r.reline f)
  | .cls c => .cls (c.reline f)
  | .object o => .object (o.reline f)
  | v => v

/-- What is called, with its code on the images of its lines. -/
def Callee.reline : Callee → Callee
  | .clock => .clock
  | .routine r => .routine (r.reline f)
  | .construct c => .construct (c.reline f)

namespace Class

@[simp] theorem identity_reline (c : Class) : (c.reline f).identity = c.identity := by
  obtain ⟨_, _, _ | _, _⟩ := c <;> rfl

@[simp] theorem name_reline (c : Class) : (c.reline f).name = c.name := by
  obtain ⟨_, _, _ | _, _⟩ := c <;> rfl

theorem method?_reline : ∀ (c : Class) (name : String),
    (c.reline f).method? name = (c.method? name).map (Routine.reline f)
  | ⟨_, _, none, methods⟩, name => methods.find?_map _ name
  | ⟨_, _, some above, methods⟩, name => by
    rw [reline, method?, method?, Table.find?_map, above.method?_reline name]
    cases methods.find? name <;> rfl

theorem reline_mk (identity : Nat) (name : String) (above : Option Class)
    (methods : Table Routine) : (Class.mk identity name above methods).reline f =
      ⟨identity, name, above.map (Class.reline f), methods.map (Routine.reline f)⟩ := by
  cases above <;> rfl

end Class

namespace Value

variable (v w : Value)

@[simp] theorem isTruthy_reline : (v.reline f).isTruthy = v.isTruthy := by cases v <;> rfl

@[simp] theorem equals_reline : (v.reline f).equals (w.reline f) = v.equals w := by
  cases v <;> cases w <;> simp [reline, equals, Object.reline]

@[simp] theorem text_reline : (v.reline f).text = v.text := by
  cases v with
  | function identity r =>
    obtain ⟨_ | _, _, _, _, _⟩ := r <;> rfl
  | bool b => cases b <;> rfl
  | cls c => exact c.name_reline f
  | object o => exact congrArg (· ++ " instance") (o.cls.name_reline f)
  | _ => rfl

theorem reline_ofLiteral (l : Literal) : (ofLiteral l).reline f = ofLiteral l := by cases l <;> rfl

theorem unary_reline (op : Kind) :
    (v.reline f).unary op = (v.unary op).map (Value.reline f) := by
  fun_cases Value.unary op v with
  | case1 => rfl
  | case2 v h =>
    cases v with
    | number n => exact absurd rfl (h n)
    | _ => rfl
  | case3 v => exact congrArg (fun b => Except.ok (bool !b)) (v.isTruthy_reline f)
  | case4 op v h h' h'' =>
    unfold unary
    split <;> simp_all [Except.map]

theorem arithmetic_reline (op : Kind) (a b : Float) :
    (arithmetic op a b).map (Value.reline f) = arithmetic op a b := by
  unfold arithmetic
  split
  case h_3 => split <;> rfl
  all_goals rfl

theorem add_reline : (v.reline f).add (w.reline f) = (v.add w).map (Value.reline f) := by
  cases v <;> cases w <;> rfl

theorem binary_reline (op : Kind) :
    binary op (v.reline f) (w.reline f) = (binary op v w).map (Value.reline f) := by
  fun_cases binary op v w with
  | case1 => exact congrArg (Except.ok ∘ bool) (equals_reline f v w)
  | case2 => exact congrArg (fun b => Except.ok (bool !b)) (equals_reline f v w)
  | case3 => exact add_reline f v w
  | case4 op a b h h' h'' =>
    rw [arithmetic_reline]
    unfold binary
    split <;> simp_all [reline]
  | case5 op v w h h' h'' hnumbers =>
    unfold binary
    split
    · exact (h rfl).elim
    · exact (h' rfl).elim
    · exact (h'' rfl).elim
    · cases v <;> cases w <;> simp_all [reline]
    · rfl

theorem callee?_reline : (v.reline f).callee? = v.callee?.map (Callee.reline f) := by
  cases v <;> rfl

end Value

@[simp] theorem Callee.arity_reline (c : Callee) : (c.reline f).arity = c.arity := by
  cases c with
  | clock | routine => rfl
  | construct c =>
    rw [reline, arity, arity, c.method?_reline]
    cases c.method? initName <;> rfl

/-! ## Machines -/

/-- The fault on the image of its line. -/
def Fault.reline : Fault → Fault
  | .runtime line cause => .runtime (f line) cause
  | e => e

/-- The machine with its code on the images of its lines, and with `before` in front of what it has
printed. -/
def Machine.moved (before : ByteArray) (m : Machine) : Machine :=
  { m with
    store := m.store.map (Value.reline f)
    objects := m.objects.map (Table.map (Value.reline f))
    printed := before ++ m.printed }

namespace Machine

variable (before : ByteArray) (m : Machine)

theorem value?_moved (site : Site (Option Nat)) :
    (m.moved f before).value? (site.reline f) = (m.value? site).map (Value.reline f) := by
  obtain ⟨mark, name⟩ := site
  cases mark with
  | none => exact m.store.read?_map _ _ _
  | some d => exact m.store.readAt?_map _ _ _ _

theorem target?_moved (site : Site (Option Nat)) :
    (m.moved f before).target? (site.reline f) = m.target? site := by
  obtain ⟨mark, name⟩ := site
  cases mark with
  | none => exact m.store.owner?_map _ _ _
  | some d => exact m.store.ancestor?_map _ _ _

theorem put_moved (frame : Nat) (name : String) (v : Value) :
    (m.moved f before).put frame name (v.reline f) = (m.put frame name v).moved f before :=
  congrArg (fun store => { m.moved f before with store })
    (m.store.map_define (Value.reline f) frame name v).symm

theorem grow_moved (names : Table Value) (parent : Nat) :
    (m.moved f before).grow (names.map (Value.reline f)) parent =
      (m.grow names parent).moved f before :=
  congrArg (fun created : Nat × Store Value => { m.moved f before with store := created.2 })
    (m.store.create_map (Value.reline f) names (some parent))

theorem nextFrame_moved : (m.moved f before).nextFrame = m.nextFrame :=
  m.store.size_frames_map _

theorem fits_moved (bytes : ByteArray) : (m.moved f before).fits bytes = m.fits bytes := rfl

theorem write_moved (bytes : ByteArray) :
    (m.moved f before).write bytes = (m.write bytes).moved f before := by
  unfold write moved
  dsimp only
  cases m.room with
  | none => simp only [ByteArray.append_assoc]
  | some r => simp only [ByteArray.append_assoc]

end Machine

end LoxLang
