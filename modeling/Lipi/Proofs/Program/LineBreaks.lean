import Lipi.Proofs.Program.Grammar

set_option autoImplicit false

/-! # Brackets on a new line

A statement may end at the end of a line, so **a bracket on a new line opens neither the arguments of a
call nor the key of an index**, wherever it stands (`Program.bracket_on_new_line`): it begins an
operand, or it opens the parameters of a function or method, which no expression is in front of. The
arguments of a new instance are the one exception; they may start on a new line
(`Program.instance_arguments_on_new_line`).
-/

namespace Lipi

open Token (nth breaksLine)

namespace Program

/-- **A bracket on a new line**: in every program that is read, each of them plays a role, and no such
role is to open the arguments of a call or a key. It begins an operand, opens parameters, or opens
arguments behind `naya` and the name of a class. -/
theorem bracket_on_new_line {text : String} {p : Program} (h : ofText text = .ok p) :
    ∃ tokens, tokenize text = .ok tokens ∧ p.Spells tokens.toArray ∧
      ∀ k, (nth tokens.toArray k).kind.IsBracket → breaksLine tokens.toArray k = true →
        (∃ role, p.Plays tokens.toArray role k) ∧
        ∀ role, p.Plays tokens.toArray role k → role = .operand ∨ role = .parameters ∨
          (role = .instanceArguments ∧ ∃ i className, k = i + 2 ∧
            (nth tokens.toArray i).kind = .keyword .naya ∧
            (nth tokens.toArray (i + 1)).kind = .identifier className) := by
  obtain ⟨tokens, htokens, hspells⟩ := spells_of_ofText h
  refine ⟨tokens, htokens, hspells, fun k hbracket hbreak => ?_⟩
  obtain ⟨hword, hname, heof⟩ := hbracket.ne
  constructor
  · have hplain : (nth tokens.toArray k).kind.plain = false := by
      rcases hbracket with hkind | hkind <;> rw [hkind] <;> rfl
    -- a bracket is neither a marker nor the end of the text
    rcases hspells.plays hplain with hplays | hkind | ⟨-, ⟨-, hkind⟩ | ⟨-, hkind⟩⟩
    · exact hplays
    · exact absurd hkind heof
    · exact absurd hkind (hword _)
    · exact absurd hkind (hword _)
  · intro role hplays
    have hfits := hplays.fits hspells
    cases role with
    | operand => exact .inl rfl
    | arguments => exact absurd (hfits.2.symm.trans hbreak) Bool.false_ne_true
    | instanceArguments => exact .inr (.inr ⟨rfl, hfits.2⟩)
    | key => exact absurd (hfits.2.symm.trans hbreak) Bool.false_ne_true
    | parameters => exact .inr (.inl rfl)
    | name =>
        -- a bracket is no word
        exfalso
        rcases hfits with hfits | hkind
        · rcases ((scanned_of_tokenize htokens).lexed_nth k).isWord_iff.mp hfits with
            ⟨name, hkind⟩ | ⟨word, hkind⟩
          · exact hname name hkind
          · exact hword word hkind
        · exact hword _ hkind

/-- An instance with its arguments on the next line, and an array on the line behind that one. -/
theorem bracket_on_new_line_new :
    ∃ p, ofText "naya A\n(b)\n[c]" = .ok p ∧
      ∃ tokens, tokenize "naya A\n(b)\n[c]" = .ok tokens ∧ p.Spells tokens.toArray ∧
        ∀ k, (nth tokens.toArray k).kind.IsBracket → breaksLine tokens.toArray k = true →
          (∃ role, p.Plays tokens.toArray role k) ∧
          ∀ role, p.Plays tokens.toArray role k → role = .operand ∨ role = .parameters ∨
            (role = .instanceArguments ∧ ∃ i className, k = i + 2 ∧
              (nth tokens.toArray i).kind = .keyword .naya ∧
              (nth tokens.toArray (i + 1)).kind = .identifier className) := by
  obtain ⟨p, hread, -⟩ : ∃ p, ofText "naya A\n(b)\n[c]" = .ok p ∧ p.misread = false :=
    ofText_of_misread (by decide +kernel)
  exact ⟨p, hread, bracket_on_new_line hread⟩

/-- The program is an instance with a name as its only argument. -/
def isInstanceOfName : Program → Bool
  | ⟨[.expression (.new _ [.identifier _ _] _) _], false⟩ => true
  | _ => false

/-- The parenthesis behind `naya A` opens the arguments of the instance although it stands on a new
line. -/
theorem instance_arguments_on_new_line :
    ∃ p tokens, ofText "naya A\n(b)" = .ok p ∧ tokenize "naya A\n(b)" = .ok tokens ∧
      breaksLine tokens.toArray 2 = true ∧ p.Plays tokens.toArray .instanceArguments 2 := by
  have hread : (ofText "naya A\n(b)").toOption.any isInstanceOfName = true := by decide +kernel
  have hbreak : ((tokenize "naya A\n(b)").toOption.map fun tokens =>
      breaksLine tokens.toArray 2) = some true := by
    decide +kernel
  cases hprogram : ofText "naya A\n(b)" with
  | error errors =>
      rw [hprogram] at hread
      cases hread
  | ok p =>
      rw [hprogram] at hread
      change isInstanceOfName p = true at hread
      unfold isInstanceOfName at hread
      split at hread
      · obtain ⟨tokens, htokens, m, ⟨_, ⟨_, ⟨_, _, hlist⟩, _⟩, _⟩, _⟩ := spells_of_ofText hprogram
        rw [htokens] at hbreak
        refine ⟨_, tokens, rfl, htokens, Option.some.inj hbreak, .inl (.inl ⟨rfl, ?_, rfl⟩)⟩
        -- there are arguments, so the third token opens them
        rcases hlist with ⟨hparen, _⟩ | ⟨_, hnone, _⟩
        · exact hparen
        · cases hnone
      · cases hread

end Program

end Lipi
