import Lipi.Proofs.Token.Split

set_option autoImplicit false

/-! # Quoted strings

A text is quoted by writing a backslash in front of some characters, and a string literal ends at the
first quote that no backslash takes. **The literal for a text ends where the quoting has put its end,
whatever follows it, and denotes that text** (`scan_quote`).

The reader of the body of a literal has a case of its own for a backslash with nothing behind it.
It comes there exactly if the body ends in an odd number of backslashes
(`Text.leaves_backslash_iff`). No string of a text has such a body: its closing quote would belong to
the last backslash and not close it.
-/

namespace Lipi

namespace Text

/-! ## Reading the body of a literal -/

/-- Reading the first text, `unescape` comes to where the second one is left. -/
inductive Leaves : List Char → List Char → Prop where
  | all {cs : List Char} : Leaves cs cs
  | escape {l : Char} {cs rest : List Char} : Leaves cs rest → Leaves ('\\' :: l :: cs) rest
  | plain {c : Char} {cs rest : List Char} : c ≠ '\\' → Leaves cs rest → Leaves (c :: cs) rest

/-- How many backslashes there are at the end of a text. -/
def lastBackslashes (cs : List Char) : Nat :=
  (cs.reverse.takeWhile (· = '\\')).length

/-- The text ends in a backslash that does not belong to another one in front of it. -/
def EndsUnpaired (cs : List Char) : Prop :=
  lastBackslashes cs % 2 = 1

theorem lastBackslashes_le (cs : List Char) : lastBackslashes cs ≤ cs.length := by
  have hle := (List.takeWhile_sublist (fun c : Char => decide (c = '\\')) (l := cs.reverse)).length_le
  rwa [List.length_reverse] at hle

/-- A character in front counts only if it is a backslash and nothing but backslashes follow. -/
theorem lastBackslashes_cons (c : Char) (cs : List Char) :
    lastBackslashes (c :: cs) =
      lastBackslashes cs + if lastBackslashes cs = cs.length ∧ c = '\\' then 1 else 0 := by
  unfold lastBackslashes
  rw [List.reverse_cons, List.takeWhile_append, List.length_reverse]
  by_cases hall : (cs.reverse.takeWhile (· = '\\')).length = cs.length
  · by_cases hc : c = '\\'
    · rw [if_pos hall, if_pos ⟨hall, hc⟩, List.takeWhile_cons_of_pos (by simpa using hc), hall]
      simp
    · rw [if_pos hall, if_neg fun h => hc h.2, List.takeWhile_cons_of_neg (by simpa using hc), hall]
      simp
  · rw [if_neg hall, if_neg fun h => hall h.1, Nat.add_zero]

theorem endsUnpaired_plain {c : Char} (hc : c ≠ '\\') (cs : List Char) :
    EndsUnpaired (c :: cs) ↔ EndsUnpaired cs := by
  unfold EndsUnpaired
  rw [lastBackslashes_cons, if_neg fun h => hc h.2, Nat.add_zero]

/-- A backslash takes what follows it, also another backslash. -/
theorem endsUnpaired_escape (l : Char) (cs : List Char) :
    EndsUnpaired ('\\' :: l :: cs) ↔ EndsUnpaired cs := by
  have hle := lastBackslashes_le cs
  have hlast := lastBackslashes_cons l cs
  unfold EndsUnpaired
  rw [lastBackslashes_cons, List.length_cons]
  by_cases hall : lastBackslashes cs = cs.length ∧ l = '\\'
  · rw [if_pos hall] at hlast
    rw [if_pos ⟨by omega, rfl⟩]
    omega
  · rw [if_neg hall] at hlast
    rw [if_neg fun h => by omega]
    omega

/-- **The reader comes to a backslash with nothing behind it exactly if the text ends in an odd number
of backslashes.** -/
theorem leaves_backslash_iff (cs : List Char) : Leaves cs ['\\'] ↔ EndsUnpaired cs := by
  constructor
  · intro h
    generalize hrest : ['\\'] = rest at h
    induction h with
    | all =>
        subst hrest
        exact rfl
    | escape _ ih => exact (endsUnpaired_escape _ _).mpr (ih hrest)
    | plain hc _ ih => exact (endsUnpaired_plain hc _).mpr (ih hrest)
  · intro h
    fun_induction Text.unescape cs with
    | case1 => cases h
    | case2 l cs c _ ih => exact .escape (ih ((endsUnpaired_escape l cs).mp h))
    | case3 l cs _ ih => exact .escape (ih ((endsUnpaired_escape l cs).mp h))
    | case4 c cs hslash ih =>
        by_cases hc : c = '\\'
        · -- with anything behind it, this backslash would be an escape
          subst hc
          cases cs with
          | nil => exact .all
          | cons l cs => exact absurd rfl (hslash l cs rfl)
        · exact .plain hc (ih ((endsUnpaired_plain hc cs).mp h))

end Text

namespace Lexer

open Computability

/-! ## The bodies of strings -/

/-- A body is empty, or starts with an escape or with another character. -/
theorem stringBody_cases {w : List Char} (hw : w ∈ stringBody∗) :
    w = [] ∨ (∃ l cs, w = '\\' :: l :: cs ∧ cs ∈ stringBody∗) ∨
      ∃ c cs, w = c :: cs ∧ c ≠ '\\' ∧ cs ∈ stringBody∗ := by
  obtain ⟨parts, rfl, hparts⟩ := Language.mem_kstar.mp hw
  cases parts with
  | nil => exact .inl rfl
  | cons v parts =>
      obtain ⟨hv, hparts⟩ := List.forall_mem_cons.mp hparts
      have hrest : parts.flatten ∈ stringBody∗ := Language.mem_kstar.mpr ⟨parts, rfl, hparts⟩
      rcases hv with ⟨c, hc, rfl⟩ | ⟨_, rfl, _, ⟨l, -, rfl⟩, rfl⟩
      · rw [Bool.and_eq_true, bne_iff_ne, bne_iff_ne] at hc
        exact .inr (.inr ⟨c, parts.flatten, rfl, hc.2, hrest⟩)
      · exact .inr (.inl ⟨l, parts.flatten, rfl, hrest⟩)

/-- What is left of a body is a body. -/
theorem stringBody_of_leaves {w rest : List Char} (h : Text.Leaves w rest) (hw : w ∈ stringBody∗) :
    rest ∈ stringBody∗ := by
  induction h with
  | all => exact hw
  | escape _ ih =>
      rcases stringBody_cases hw with heq | ⟨l, cs, heq, hcs⟩ | ⟨c, cs, heq, hc, -⟩
      · cases heq
      · cases heq
        exact ih hcs
      · cases heq
        exact absurd rfl hc
  | plain hc _ ih =>
      rcases stringBody_cases hw with heq | ⟨l, cs, heq, -⟩ | ⟨c, cs, heq, -, hcs⟩
      · cases heq
      · cases heq
        exact absurd rfl hc
      · cases heq
        exact ih hcs

/-- Every backslash of a body has a character behind it. -/
theorem not_leaves_backslash {w : List Char} (hw : w ∈ stringBody∗) : ¬ Text.Leaves w ['\\'] := by
  intro h
  rcases stringBody_cases (stringBody_of_leaves h hw) with heq | ⟨l, cs, heq, -⟩ | ⟨c, cs, heq, hc, -⟩
  · cases heq
  · cases heq
  · cases heq
    exact hc rfl

/-! ## The strings of a text -/

/-- Every token but the end token is the longest piece of a rule at its place. -/
theorem Split.longest {p : Position} {cs : List Char} {tokens : List Token} (h : Split p cs tokens) :
    ∀ t ∈ tokens, t.kind = .eof ∨ ∃ r rest, Longest r t.lexeme.toList rest ∧
      r.piece? t.lexeme.toList = some (.token t.kind) := by
  induction h with
  | done _ => exact List.forall_mem_singleton.mpr (.inl rfl)
  | @token p g w rest r kind tokens _ hlexeme hkind _ ih =>
      have hw : (String.ofList w).toList = w := String.toList_ofList
      rw [← hw] at hlexeme hkind
      exact List.forall_mem_cons.mpr ⟨.inr ⟨r, rest, hlexeme, hkind⟩, ih⟩

/-- A piece that is a string is quoted, and denotes what its body is read as. -/
theorem Longest.string {r : Rule} {w rest : List Char} {value : String} (h : Longest r w rest)
    (hpiece : r.piece? w = some (.token (.string value))) :
    ∃ body ∈ stringBody∗, w = '"' :: (body ++ ['"']) ∧
      value = String.ofList (Text.unescape body) := by
  cases r with
  | string =>
      obtain ⟨_, rfl, _, ⟨body, hbody, _, rfl, rfl⟩, rfl⟩ := h.mem
      refine ⟨body, hbody, rfl, ?_⟩
      have hvalue : String.ofList (Text.unescape (body ++ ['"']).dropLast) = value := by
        simpa [Rule.piece?] using hpiece
      rw [← hvalue, List.dropLast_concat]
  | word =>
      simp only [Rule.piece?, wordKind, Option.some.injEq, Piece.token.injEq] at hpiece
      split at hpiece <;> cases hpiece
  | number =>
      obtain ⟨_, _, heq⟩ := Option.map_eq_some_iff.mp hpiece
      cases heq
  | _ => cases hpiece

/-- The literal for a text is the piece in front of any rest. -/
theorem piece_quote (value : String) (rest : List Char) :
    ∃ c cs, (Text.quote value).toList = c :: cs ∧
      piece c (cs ++ rest) = .ok (.token (.string value), cs.length) := by
  have hnone : ∀ c ∈ ([] : List Char), isBlank c = true := fun _ hc => nomatch hc
  obtain ⟨-, -, c, cs, hquote, -, hpiece⟩ := Item.lexes_string hnone value rest
  exact ⟨c, cs, hquote, hpiece⟩

/-- **The literal for a text is one token, whatever follows it.** -/
theorem scan_quote (value : String) (rest : List Char) (p : Position) :
    scan p ((Text.quote value).toList ++ rest) =
      (scan (p.after (Text.quote value).toList) rest).map fun tokens =>
        ⟨.string value, Text.quote value, p⟩ :: tokens := by
  obtain ⟨c, cs, hquote, hpiece⟩ := piece_quote value rest
  rw [hquote, List.cons_append, scan, hpiece]
  dsimp only
  rw [List.take_left, List.drop_left, ← hquote, String.ofList_toList]
  cases scan (p.after (Text.quote value).toList) rest <;> rfl

end Lexer

/-- **Quoting and reading strings are inverse.** In front of any text, also one that has no tokens,
the literal for a value is one string token, which is this literal and has this value; and what is
read as the body of a string never ends in a backslash that nothing belongs to, so that the reader
does not come to its last case. -/
theorem strings_quoted :
    (∀ (value : String) (rest : List Char),
      (∃ c cs, (Text.quote value).toList = c :: cs ∧
        Lexer.piece c (cs ++ rest) = .ok (.token (.string value), cs.length)) ∧
      ∀ p, Lexer.scan p ((Text.quote value).toList ++ rest) =
        (Lexer.scan (p.after (Text.quote value).toList) rest).map fun tokens =>
          ⟨.string value, Text.quote value, p⟩ :: tokens) ∧
    ∀ text tokens, tokenize text = .ok tokens → ∀ t ∈ tokens, ∀ value, t.kind = .string value →
      ∃ body, t.lexeme.toList = '"' :: (body ++ ['"']) ∧
        value = String.ofList (Text.unescape body) ∧
        ¬ Text.EndsUnpaired body ∧ ¬ Text.Leaves body ['\\'] := by
  refine ⟨fun value rest => ⟨Lexer.piece_quote value rest, Lexer.scan_quote value rest⟩, ?_⟩
  intro text tokens htokens t ht value hkind
  rcases (Lexer.split_of_scan htokens).longest t ht with heof | ⟨r, rest, hlongest, hpiece⟩
  · rw [hkind] at heof
    cases heof
  · rw [hkind] at hpiece
    obtain ⟨body, hbody, hlexeme, hvalue⟩ := hlongest.string hpiece
    have hleaves := Lexer.not_leaves_backslash hbody
    exact ⟨body, hlexeme, hvalue, (Text.leaves_backslash_iff body).not.mp hleaves, hleaves⟩

/-- A string that ends in a backslash. -/
theorem strings_quoted_backslash : ∃ tokens, tokenize "\"a\\\\\"" = .ok tokens ∧
    ∃ t ∈ tokens, t.kind = .string "a\\" ∧
      ∃ body, t.lexeme.toList = '"' :: (body ++ ['"']) ∧
        "a\\" = String.ofList (Text.unescape body) ∧
        ¬ Text.EndsUnpaired body ∧ ¬ Text.Leaves body ['\\'] := by
  have htokens : tokenize (Text.quote "a\\") =
      .ok [⟨.string "a\\", Text.quote "a\\", ⟨1, 1⟩⟩, ⟨.eof, "", ⟨1, 6⟩⟩] := by
    have hscan := (strings_quoted.1 "a\\" []).2 Position.start
    rw [List.append_nil, Lexer.scan] at hscan
    exact hscan
  exact ⟨_, htokens, _, List.mem_cons_self, rfl,
    strings_quoted.2 _ _ htokens _ List.mem_cons_self _ rfl⟩

end Lipi
