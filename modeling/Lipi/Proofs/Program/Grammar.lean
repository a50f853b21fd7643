import Lipi.Proofs.Program.Concatenation
import Lipi.Proofs.Statement.Roles
import Lipi.Proofs.Statement.Soundness

set_option autoImplicit false

/-! # The grammar of programs

**The tokens of a text that is read as a program spell that program, all of them**
(`Program.spells_of_ofText`). `Program.Plays` says what the tokens are there for; in a program that is
read every bracket opens something, and every word that is a program marker either stands at the
start or the end of the program or is the name of a property or method.
-/

namespace Lipi

open Token (nth)
open Statement (SpellsAll PlaysInAll)

namespace Program

/-! ## Spelling -/

/-- The number of the first token of the body. -/
def start (p : Program) : Nat :=
  if p.markers then 1 else 0

/-- The tokens spell the program: its body, between the two markers or without them, and the end of
the text. -/
def Spells (tokens : Array Token) (p : Program) : Prop :=
  ∃ m, SpellsAll tokens p.body p.start m ∧
    if p.markers then
      (nth tokens 0).kind = .keyword .shuru ∧ (nth tokens m).kind = .keyword .khatam ∧
        (nth tokens (m + 1)).kind = .eof ∧ tokens.size = m + 2
    else (nth tokens m).kind = .eof ∧ tokens.size = m + 1

/-- The `k`-th token plays the role in the spelling of the program. -/
def Plays (tokens : Array Token) (role : Role) (k : Nat) (p : Program) : Prop :=
  PlaysInAll tokens role k p.body p.start

end Program

/-! ## Reading -/

theorem Token.EndsOnce.ended {tokens : List Token} (h : EndsOnce tokens) :
    (Stream.ofTokens tokens).Ended := by
  obtain ⟨front, last, rfl, hlast, -⟩ := h
  exact ⟨last, by simp [Stream.ofTokens], hlast⟩

theorem Token.Scanned.lexed_nth {tokens : List Token} (h : Scanned tokens) (i : Nat) :
    (nth tokens.toArray i).Lexed := by
  rw [nth, List.getElem?_toArray]
  cases htoken : tokens[i]? with
  | none => trivial
  | some t => exact h.lexed t (List.mem_of_getElem? htoken)

theorem Role.Fits.ne_eof {tokens : Array Token} {role : Role} {k : Nat}
    (h : role.Fits tokens k) : (nth tokens k).kind ≠ .eof := by
  intro heof
  rcases h.bracket with rfl | hbracket
  · rcases h with hword | hkind
    · rw [Token.isWord, heof] at hword
      cases hword
    · exact hkind.trans_ne (by simp) heof
  · exact hbracket.ne.2.2 heof

/-- No token of a spelling is the end of the text. -/
theorem Statement.SpellsAll.ne_eof {tokens : Array Token} {ts : List Statement} {i j : Nat}
    (h : SpellsAll tokens ts i j) {k : Nat} (hle : i ≤ k) (hlt : k < j) :
    (nth tokens k).kind ≠ .eof := by
  rcases accountedAll ts h k hle hlt with hplain | ⟨role, hplays⟩
  · intro heof
    rw [heof] at hplain
    cases hplain
  · exact (PlaysInAll.fits ts h hplays).ne_eof

/-- Behind a spelling in front of the last token comes, at the latest, the last token. -/
theorem Statement.SpellsAll.lt_length {tokens : List Token} (hended : Token.EndsOnce tokens)
    {ts : List Statement} {i j : Nat} (h : SpellsAll tokens.toArray ts i j)
    (hi : i < tokens.length) : j < tokens.length := by
  by_contra hge
  have hlast := (hended.kind_eof_iff (i := tokens.length - 1) (by omega)).mpr (by omega)
  exact h.ne_eof (by omega) (by omega) hlast

namespace Parser

/-- **The body of a program that is read is spelled by the tokens up to its end.** -/
theorem programBody_parsed {s : Stream} (hended : s.Ended) (hlexed : s.Lexed) {markers : Bool}
    {n i : Nat} {previous : List Statement} {q : Program}
    (h : programBody markers n previous (s.goto i) = .ok q) :
    ∃ us m, q = ⟨previous.reverse ++ us, markers⟩ ∧ SpellsAll s.tokens us i m ∧
      if markers then
        (nth s.tokens m).kind = .keyword .khatam ∧ (nth s.tokens (m + 1)).kind = .eof
      else (nth s.tokens m).kind = .eof := by
  induction n generalizing i previous with
  | zero => exact absurd h fatal_ne_ok
  | succ n ih =>
      have hhere : (s.goto i).Lexed := hlexed
      rw [programBody, hended.kind] at h
      split at h
      · next heof =>
        split at h
        · exact absurd h fatal_ne_ok
        · next hmarkers =>
          obtain ⟨-, rfl⟩ := conclude_ok h
          refine ⟨[], i, by simp, rfl, ?_⟩
          rw [if_neg hmarkers]
          exact heof
      · next hkhatam =>
        split at h
        · next hmarkers =>
          dsimp only at h
          rw [(hended.advance (hkhatam.trans_ne (by simp))).2] at h
          split at h
          · next hend =>
            obtain ⟨-, rfl⟩ := conclude_ok h
            rw [Stream.isAtEnd_iff, hended.kind] at hend
            refine ⟨[], i, by simp, rfl, ?_⟩
            rw [if_pos hmarkers]
            exact ⟨hkhatam, hend⟩
          · exact absurd h fatal_ne_ok
        · exact absurd h fatal_ne_ok
      · split at h
        · next t s₁ hrun =>
          -- a program is read only if no error has been recorded
          have hkeeps := (steady_declaration true).ok hrun
          have hnone := (programBody_ok (hhere.keeps hkeeps) h).1
          obtain ⟨k, rfl, ht⟩ := declaration_parsed hended hrun (by omega)
          obtain ⟨us, m, rfl, hus, hend⟩ := ih h
          exact ⟨t :: us, m, by simp, ⟨k, ht, hus⟩, hend⟩
        · next error s₁ hrun =>
          split at h
          · cases h
          · have hkeeps := (steady_declaration true).error hrun
            have hthere := (hhere.keeps hkeeps).keeps (.recover s₁ error false)
            have hnone := (programBody_ok hthere h).1
            have hrecorded := s₁.errors_lt_recover error false
            omega

end Parser

namespace Program

/-- **The tokens of a text that is read as a program spell the program.** -/
theorem spells_of_ofText {text : String} {p : Program} (h : ofText text = .ok p) :
    ∃ tokens, tokenize text = .ok tokens ∧ p.Spells tokens.toArray := by
  unfold ofText at h
  cases htokens : tokenize text with
  | error e =>
      rw [htokens] at h
      cases h
  | ok tokens =>
      refine ⟨tokens, rfl, ?_⟩
      rw [htokens] at h
      have hended := (scanned_of_tokenize htokens).ended
      have hlexed := lexed_of_tokenize htokens
      have hstream := hended.ended
      have hpos := hended.length_pos
      unfold ofTokens at h
      dsimp only at h
      split at h
      · next hcheck =>
        have hshuru : (nth tokens.toArray 0).kind = .keyword .shuru :=
          (hstream.kind 0).symm.trans ((Stream.check_keyword _ _).mp hcheck)
        have hadvance : (Stream.ofTokens tokens).advance = (Stream.ofTokens tokens).goto 1 :=
          (hstream.advance (i := 0) (hshuru.trans_ne (by simp))).2
        rw [hadvance] at h
        obtain ⟨us, m, rfl, hus, hkhatam, heof⟩ := Parser.programBody_parsed hstream hlexed h
        have hlong : tokens.length ≠ 1 := fun hone =>
          hshuru.trans_ne (by simp) ((hended.kind_eof_iff hpos).mpr hone.symm)
        have hm := hus.lt_length hended (by omega)
        have hm' : m + 1 ≠ tokens.length := fun hlast =>
          hkhatam.trans_ne (by simp) ((hended.kind_eof_iff hm).mpr hlast)
        -- only the last token is the end, and so the closing marker stands in front of it
        have hsize := (hended.kind_eof_iff (i := m + 1) (by omega)).mp heof
        exact ⟨m, hus, hshuru, hkhatam, heof, hsize.symm⟩
      · obtain ⟨us, m, rfl, hus, heof⟩ := Parser.programBody_parsed (i := 0) hstream hlexed h
        have hm := hus.lt_length hended hpos
        exact ⟨m, hus, heof, ((hended.kind_eof_iff hm).mp heof).symm⟩

section
variable {tokens : Array Token} {p : Program} {role : Role} {k : Nat}

/-- **A token of a program plays only roles that it fits.** -/
theorem Plays.fits (h : p.Spells tokens) (hplays : p.Plays tokens role k) :
    role.Fits tokens k := by
  obtain ⟨m, hbody, _⟩ := h
  exact Statement.PlaysInAll.fits p.body hbody hplays

/-- **A token of a program that is not plain plays a role**, unless it is one of the markers around the
program or the end of the text. -/
theorem Spells.plays (h : p.Spells tokens) (hkind : (nth tokens k).kind.plain = false) :
    (∃ role, p.Plays tokens role k) ∨ (nth tokens k).kind = .eof ∨
      (p.markers = true ∧ ((k = 0 ∧ (nth tokens k).kind = .keyword .shuru) ∨
        (k + 2 = tokens.size ∧ (nth tokens k).kind = .keyword .khatam))) := by
  obtain ⟨m, hbody, hmarkers⟩ := h
  by_cases heof : (nth tokens k).kind = .eof
  · exact .inr (.inl heof)
  have hsize := Stream.lt_of_kind heof
  have hinside : p.start ≤ k → k < m → ∃ role, p.Plays tokens role k := fun hle hlt =>
    (Statement.accountedAll p.body hbody k hle hlt).resolve_left (by simp [hkind])
  unfold start at hinside
  cases hp : p.markers with
  | true =>
      simp only [hp, if_true] at hmarkers hinside
      obtain ⟨hshuru, hkhatam, hend, hlast⟩ := hmarkers
      by_cases hzero : k = 0
      · subst hzero
        exact .inr (.inr ⟨rfl, .inl ⟨rfl, hshuru⟩⟩)
      by_cases hm : k = m
      · subst hm
        exact .inr (.inr ⟨rfl, .inr ⟨hlast.symm, hkhatam⟩⟩)
      by_cases hm' : k = m + 1
      · subst hm'
        exact absurd hend heof
      · exact .inl (hinside (by omega) (by omega))
  | false =>
      simp only [hp, Bool.false_eq_true, if_false] at hmarkers hinside
      obtain ⟨hend, hlast⟩ := hmarkers
      by_cases hm : k = m
      · subst hm
        exact absurd hend heof
      · exact .inl (hinside (by omega) (by omega))

end

end Program

end Lipi
