import Lipi.Expr.Printer
import Lipi.Proofs.Token.Items

set_option autoImplicit false

/-! # Trees that a reader builds

The printer puts no parentheses of its own, so it writes down only the trees that have them where
they are needed. `Expr.WellFormed` says which trees these are: **an operand binds at least as
tightly as its place asks for**, and names and numerals can be read. Positions play no part in this;
`Expr.erase` forgets them.
-/

namespace Lipi

/-- A constant that can be written down: a number is finite and not negative. -/
def Literal.WellFormed : Literal → Prop
  | number value => ∃ bits < Number.infinityBits, value = Number.ofSignedBits false bits
  | _ => True

theorem Literal.beq_self {value : Literal} (h : value.WellFormed) : (value == value) = true := by
  cases value with
  | number x =>
      obtain ⟨bits, hbits, rfl⟩ := h
      exact Number.ofSignedBits_beq_self hbits
  | string s => exact beq_self_eq_true s
  | bool b => exact beq_self_eq_true b
  | null => rfl

namespace Expr

/-- How loosely the outermost construct of an expression binds: a unary operator more loosely than
calls and primary expressions, a binary operator by its tier, an assignment most loosely. -/
def level : Expr → Nat
  | unary _ _ _ => 1
  | binary op _ _ _ => op.tier + 1
  | assign _ _ _ => 8
  | _ => 0

mutual

/-- The expressions that a reader builds. -/
def WellFormed : Expr → Prop
  | literal value _ => value.WellFormed
  | identifier name _ => IsName name
  | unary _ operand _ => operand.level ≤ 1 ∧ operand.WellFormed
  | binary op left right _ =>
    (left.level ≤ op.tier + 1 ∧ left.WellFormed) ∧ right.level ≤ op.tier ∧ right.WellFormed
  | assign target value _ => (target.level ≤ 7 ∧ target.WellFormed) ∧ value.WellFormed
  | call callee arguments _ => (callee.level = 0 ∧ callee.WellFormed) ∧ AllWellFormed arguments
  | member object name _ => (object.level = 0 ∧ object.WellFormed) ∧ IsWord name
  | index object key _ => (object.level = 0 ∧ object.WellFormed) ∧ key.WellFormed
  | array elements _ => AllWellFormed elements
  | receiver _ => True
  | super _ => True
  | new className arguments _ => IsName className ∧ AllWellFormed arguments
  | grouping inner _ => inner.WellFormed

def AllWellFormed : List Expr → Prop
  | [] => True
  | e :: es => e.WellFormed ∧ AllWellFormed es

end

theorem allWellFormed_iff {es : List Expr} : AllWellFormed es ↔ ∀ e ∈ es, e.WellFormed := by
  induction es with
  | nil => simp [AllWellFormed]
  | cons e es ih => simp [AllWellFormed, ih]

/-- A binary operator has a tier from one to six. -/
theorem tier_pos (op : BinaryOp) : 0 < op.tier ∧ op.tier ≤ 6 := by
  cases op <;> decide

/-! ## Positions -/

mutual

/-- An expression with the same position everywhere. -/
def erase : Expr → Expr
  | literal value _ => literal value .start
  | identifier name _ => identifier name .start
  | unary op operand _ => unary op operand.erase .start
  | binary op left right _ => binary op left.erase right.erase .start
  | assign target value _ => assign target.erase value.erase .start
  | call callee arguments _ => call callee.erase (eraseAll arguments) .start
  | member object name _ => member object.erase name .start
  | index object key _ => index object.erase key.erase .start
  | array elements _ => array (eraseAll elements) .start
  | receiver _ => receiver .start
  | super _ => super .start
  | new className arguments _ => new className (eraseAll arguments) .start
  | grouping inner _ => grouping inner.erase .start

def eraseAll : List Expr → List Expr
  | [] => []
  | e :: es => e.erase :: eraseAll es

end

/-- The two expressions are the same up to positions. -/
def Same (e e' : Expr) : Prop :=
  e'.erase = e.erase

mutual

/-- Positions are not printed. -/
theorem text_erase : (e : Expr) → e.erase.text = e.text
  | literal _ _ | identifier _ _ | receiver _ | super _ => rfl
  | unary _ operand _ => by rw [erase, text, text, text_erase operand]
  | binary _ left right _ => by rw [erase, text, text, text_erase left, text_erase right]
  | assign target value _ => by rw [erase, text, text, text_erase target, text_erase value]
  | call callee arguments _ => by
      rw [erase, text, text, text_erase callee, textList_eraseAll arguments]
  | member object _ _ => by rw [erase, text, text, text_erase object]
  | index object key _ => by rw [erase, text, text, text_erase object, text_erase key]
  | array elements _ => by rw [erase, text, text, textList_eraseAll elements]
  | new _ arguments _ => by rw [erase, text, text, textList_eraseAll arguments]
  | grouping inner _ => by rw [erase, text, text, text_erase inner]

theorem textList_eraseAll : (es : List Expr) → textList (eraseAll es) = textList es
  | [] => rfl
  | [e] => text_erase e
  | e :: e' :: es => by
      have hrest : textList (e'.erase :: eraseAll es) = textList (e' :: es) :=
        textList_eraseAll (e' :: es)
      show e.erase.text ++ ", " ++ textList (e'.erase :: eraseAll es)
        = e.text ++ ", " ++ textList (e' :: es)
      rw [text_erase e, hrest]

end

mutual

/-- A well-formed expression agrees with every expression that is the same up to positions. A number
equals itself because it is finite. -/
theorem agrees_of_erase : (e e' : Expr) → e.WellFormed → e'.erase = e.erase → e.agrees e' = true
  | literal value _, e', hwell, h => by
      cases e' <;> simp only [erase, reduceCtorEq, literal.injEq] at h
      rw [h.1]
      exact Literal.beq_self hwell
  | identifier name _, e', _, h => by
      cases e' <;> simp only [erase, reduceCtorEq, identifier.injEq] at h
      simp [agrees, h]
  | unary op operand _, e', hwell, h => by
      cases e' <;> simp only [erase, reduceCtorEq, unary.injEq] at h
      simp [agrees, h, agrees_of_erase operand _ hwell.2 h.2.1]
  | binary op left right _, e', hwell, h => by
      cases e' <;> simp only [erase, reduceCtorEq, binary.injEq] at h
      simp [agrees, h, agrees_of_erase left _ hwell.1.2 h.2.1,
        agrees_of_erase right _ hwell.2.2 h.2.2.1]
  | assign target value _, e', hwell, h => by
      cases e' <;> simp only [erase, reduceCtorEq, assign.injEq] at h
      simp [agrees, agrees_of_erase target _ hwell.1.2 h.1, agrees_of_erase value _ hwell.2 h.2.1]
  | call callee arguments _, e', hwell, h => by
      cases e' <;> simp only [erase, reduceCtorEq, call.injEq] at h
      simp [agrees, agrees_of_erase callee _ hwell.1.2 h.1,
        agreesAll_of_erase arguments _ hwell.2 h.2.1]
  | member object name _, e', hwell, h => by
      cases e' <;> simp only [erase, reduceCtorEq, member.injEq] at h
      simp [agrees, h, agrees_of_erase object _ hwell.1.2 h.1]
  | index object key _, e', hwell, h => by
      cases e' <;> simp only [erase, reduceCtorEq, index.injEq] at h
      simp [agrees, agrees_of_erase object _ hwell.1.2 h.1, agrees_of_erase key _ hwell.2 h.2.1]
  | array elements _, e', hwell, h => by
      cases e' <;> simp only [erase, reduceCtorEq, array.injEq] at h
      simp [agrees, agreesAll_of_erase elements _ hwell h.1]
  | receiver _, e', _, h => by
      cases e' <;> simp only [erase, reduceCtorEq] at h
      rfl
  | super _, e', _, h => by
      cases e' <;> simp only [erase, reduceCtorEq] at h
      rfl
  | new className arguments _, e', hwell, h => by
      cases e' <;> simp only [erase, reduceCtorEq, new.injEq] at h
      simp [agrees, h, agreesAll_of_erase arguments _ hwell.2 h.2.1]
  | grouping inner _, e', hwell, h => by
      cases e' <;> simp only [erase, reduceCtorEq, grouping.injEq] at h
      simp [agrees, agrees_of_erase inner _ hwell h.1]

theorem agreesAll_of_erase :
    (es es' : List Expr) → AllWellFormed es → eraseAll es' = eraseAll es → agreesAll es es' = true
  | [], es', _, h => by
      cases es' <;> simp only [eraseAll, reduceCtorEq] at h
      rfl
  | e :: es, es', hwell, h => by
      cases es' <;> simp only [eraseAll, reduceCtorEq, List.cons.injEq] at h
      simp [agreesAll, agrees_of_erase e _ hwell.1 h.1, agreesAll_of_erase es _ hwell.2 h.2]

end

mutual

/-- Expressions that agree are equally deep. -/
theorem depth_eq_of_agrees : (e e' : Expr) → e.agrees e' = true → e.depth = e'.depth
  | literal _ _, e', h => by
      cases e' <;> simp only [agrees, Bool.false_eq_true] at h
      rfl
  | identifier _ _, e', h => by
      cases e' <;> simp only [agrees, Bool.false_eq_true] at h
      rfl
  | unary op operand _, e', h => by
      cases e' <;> simp only [agrees, Bool.false_eq_true, Bool.and_eq_true] at h
      rw [depth, depth, depth_eq_of_agrees operand _ h.2]
  | binary op left right _, e', h => by
      cases e' <;> simp only [agrees, Bool.false_eq_true, Bool.and_eq_true] at h
      rw [depth, depth, depth_eq_of_agrees left _ h.1.2, depth_eq_of_agrees right _ h.2]
  | assign target value _, e', h => by
      cases e' <;> simp only [agrees, Bool.false_eq_true, Bool.and_eq_true] at h
      rw [depth, depth, depth_eq_of_agrees target _ h.1, depth_eq_of_agrees value _ h.2]
  | call callee arguments _, e', h => by
      cases e' <;> simp only [agrees, Bool.false_eq_true, Bool.and_eq_true] at h
      rw [depth, depth, depth_eq_of_agrees callee _ h.1, depthAll_eq_of_agrees arguments _ h.2]
  | member object name _, e', h => by
      cases e' <;> simp only [agrees, Bool.false_eq_true, Bool.and_eq_true] at h
      rw [depth, depth, depth_eq_of_agrees object _ h.1]
  | index object key _, e', h => by
      cases e' <;> simp only [agrees, Bool.false_eq_true, Bool.and_eq_true] at h
      rw [depth, depth, depth_eq_of_agrees object _ h.1, depth_eq_of_agrees key _ h.2]
  | array elements _, e', h => by
      cases e' <;> simp only [agrees, Bool.false_eq_true] at h
      rw [depth, depth, depthAll_eq_of_agrees elements _ h]
  | receiver _, e', h => by
      cases e' <;> simp only [agrees, Bool.false_eq_true] at h
      rfl
  | super _, e', h => by
      cases e' <;> simp only [agrees, Bool.false_eq_true] at h
      rfl
  | new className arguments _, e', h => by
      cases e' <;> simp only [agrees, Bool.false_eq_true, Bool.and_eq_true] at h
      rw [depth, depth, depthAll_eq_of_agrees arguments _ h.2]
  | grouping inner _, e', h => by
      cases e' <;> simp only [agrees, Bool.false_eq_true] at h
      rw [depth, depth, depth_eq_of_agrees inner _ h]

theorem depthAll_eq_of_agrees :
    (es es' : List Expr) → agreesAll es es' = true → depthAll es = depthAll es'
  | [], es', h => by
      cases es' <;> simp only [agreesAll, Bool.false_eq_true] at h
      rfl
  | e :: es, es', h => by
      cases es' <;> simp only [agreesAll, Bool.false_eq_true, Bool.and_eq_true] at h
      rw [depthAll, depthAll, depth_eq_of_agrees e _ h.1, depthAll_eq_of_agrees es _ h.2]

end

end Expr

end Lipi
