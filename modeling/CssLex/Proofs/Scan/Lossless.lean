import CssLex.Proofs.Scan.Ends

namespace CssLex

/-- How many bytes some tokens take. -/
def Token.total : List Token → Nat
  | [] => 0
  | token :: tokens => token.length + total tokens

namespace Token

@[simp] theorem total_nil : total [] = 0 := rfl

@[simp] theorem total_cons (token : Token) (tokens : List Token) :
    total (token :: tokens) = token.length + total tokens := rfl

@[simp] theorem total_append (left right : List Token) : total (left ++ right) = total left + total right := by
  induction left with
  | nil => simp
  | cons token left ih => rw [List.cons_append, total_cons, total_cons, ih, Nat.add_assoc]

theorem total_take_succ {tokens : List Token} {k : Nat} {token : Token} (here : tokens[k]? = some token) :
    total (tokens.take (k + 1)) = total (tokens.take k) + token.length := by
  rw [List.take_add_one, here, total_append]
  simp

theorem total_take_le (tokens : List Token) (k : Nat) : total (tokens.take k) ≤ total tokens := by
  conv => rhs; rw [← List.take_append_drop k tokens, total_append]
  omega

theorem total_take_mono (tokens : List Token) {k l : Nat} (le : k ≤ l) :
    total (tokens.take k) ≤ total (tokens.take l) := by
  have := total_take_le (tokens.take l) k
  rwa [List.take_take, Nat.min_eq_left le] at this

theorem total_take_add (tokens : List Token) (k l : Nat) :
    total (tokens.take (k + l)) = total (tokens.take k) + total ((tokens.drop k).take l) := by
  rw [List.take_add, total_append]

private theorem length_le_total {tokens : List Token} (long : ∀ token ∈ tokens, 0 < token.length) :
    tokens.length ≤ total tokens := by
  induction tokens with
  | nil => exact Nat.le_refl 0
  | cons token tokens ih =>
    rw [List.forall_mem_cons] at long
    have := ih long.2
    rw [List.length_cons, total_cons]
    omega

/-- The bytes from the token at an index on. -/
def ahead (tokens : List Token) (bytes : Bytes) (k : Nat) : Bytes := bytes.drop (total (tokens.take k))

theorem ahead_succ {tokens : List Token} {k : Nat} {token : Token} (here : tokens[k]? = some token) (bytes : Bytes) :
    ahead tokens bytes (k + 1) = (ahead tokens bytes k).drop token.length := by
  rw [ahead, ahead, total_take_succ here, List.drop_drop]

end Token

namespace Scan

theorem quotedRest_kind (quote : UInt8) (bytes : Bytes) :
    (quotedRest quote bytes).kind = .string ∨ (quotedRest quote bytes).kind = .badString := by
  induction bytes using quotedRest.induct quote with
  | case1 =>
    rw [quotedRest]
    exact .inl rfl
  | case2 c rest closing =>
    rw [quotedRest, if_pos closing]
    exact .inl rfl
  | case3 c rest notClosing newline =>
    rw [quotedRest, if_neg notClosing, if_pos newline]
    exact .inr rfl
  | case4 c rest notClosing notNewline backslash ih =>
    rw [quotedRest, if_neg notClosing, if_neg notNewline, if_pos backslash]
    exact ih
  | case5 c rest notClosing notNewline notBackslash ih =>
    rw [quotedRest, if_neg notClosing, if_neg notNewline, if_neg notBackslash]
    exact ih

theorem numeric_kind (bytes : Bytes) : (numeric bytes).kind = .dimension ∨ (numeric bytes).kind = .percentage ∨
    (numeric bytes).kind = .number := by
  unfold numeric
  dsimp only
  split
  · exact .inl rfl
  · split
    · exact .inr (.inl rfl)
    · exact .inr (.inr rfl)

theorem urlRest_kind (bytes : Bytes) : (urlRest bytes).kind = .url ∨ (urlRest bytes).kind = .badUrl := by
  induction bytes using urlRest.induct with
  | case1 =>
    rw [urlRest]
    exact .inl rfl
  | case2 c rest closing =>
    rw [urlRest, if_pos closing]
    exact .inl rfl
  | case3 c rest notClosing blank =>
    rw [urlRest, if_neg notClosing, if_pos blank, Token.extend_kind]
    cases rest.drop (whitespaceLength rest) with
    | nil => exact .inl rfl
    | cons d rest =>
      rw [urlEnd]
      split
      · exact .inl rfl
      · exact .inr rfl
  | case4 c rest notClosing notBlank escape ih =>
    rw [urlRest, if_neg notClosing, if_neg notBlank, if_pos escape]
    exact ih
  | case5 c rest notClosing notBlank noEscape fault =>
    rw [urlRest, if_neg notClosing, if_neg notBlank, if_neg noEscape, if_pos fault]
    exact .inr rfl
  | case6 c rest notClosing notBlank noEscape plain ih =>
    rw [urlRest, if_neg notClosing, if_neg notBlank, if_neg noEscape, if_neg plain]
    exact ih

theorem identLike_kind (bytes : Bytes) : (identLike bytes).kind = .ident ∨ (identLike bytes).kind = .function ∨
    (identLike bytes).kind = .url ∨ (identLike bytes).kind = .badUrl := by
  unfold identLike
  dsimp only
  rw [Token.extend_kind]
  cases bytes.drop (nameLength bytes) with
  | nil => exact .inl rfl
  | cons c rest =>
    rw [nameWith]
    split
    · exact .inl rfl
    split
    · exact .inr (.inl rfl)
    · exact .inr (.inr (urlRest_kind _))

/-- Only the end of input is the end of input. -/
theorem next_kind_ne_eof (c : UInt8) (rest : Bytes) : (next (c :: rest)).kind ≠ .eof := by
  have built := construct c rest
  generalize next (c :: rest) = token at built ⊢
  cases built with
  | string =>
    rw [Token.extend_kind]
    rcases quotedRest_kind c rest with kind | kind <;> simp [kind]
  | numeric => rcases numeric_kind (c :: rest) with kind | kind | kind <;> simp [kind]
  | identLike => rcases identLike_kind (c :: rest) with kind | kind | kind | kind <;> simp [kind]
  | punctuation single =>
    rintro rfl
    exact absurd (ofPunctuation?_mem single) (by decide)
  | _ => simp

variable {bytes : Bytes} {token : Token} {k : Nat}

/-- What is left behind the token at the front. -/
def past (bytes : Bytes) : Bytes := bytes.drop (next bytes).length

theorem tokens_ne_nil {bytes : Bytes} (left : bytes ≠ []) :
    tokens bytes = next bytes :: tokens (bytes.drop (next bytes).length) := by
  cases bytes with
  | nil => exact absurd rfl left
  | cons c rest => rw [tokens]

/-- A text is a single token if the first one takes all of it. -/
theorem tokens_single_iff (all : token.length = bytes.length) :
    tokens bytes = [token] ↔ bytes ≠ [] ∧ next bytes = token := by
  constructor
  · intro single
    have some : bytes ≠ [] := by
      rintro rfl
      simp [tokens] at single
    rw [tokens_ne_nil some] at single
    exact ⟨some, (List.cons.inj single).1⟩
  · rintro ⟨some, first⟩
    rw [tokens_ne_nil some, first, all, List.drop_length, tokens]

theorem total_tokens (bytes : Bytes) : Token.total (tokens bytes) = bytes.length := by
  induction bytes using tokens.induct with
  | case1 => simp [tokens]
  | case2 c rest token =>
    rename_i ih
    have fits : token.length ≤ (c :: rest).length := next_length_le (c :: rest)
    rw [List.length_drop] at ih
    rw [tokens]
    change token.length + Token.total (tokens ((c :: rest).drop token.length)) = (c :: rest).length
    omega

/-- Behind some tokens of a text stand the tokens of what is left of it. -/
theorem drop_tokens (bytes : Bytes) (k : Nat) :
    (tokens bytes).drop k = tokens (bytes.drop (Token.total ((tokens bytes).take k))) := by
  induction k generalizing bytes with
  | zero => simp
  | succ k ih =>
    cases bytes with
    | nil => simp [tokens]
    | cons c rest =>
      rw [tokens_ne_nil (by simp), List.drop_succ_cons, List.take_succ_cons, Token.total_cons, ih, List.drop_drop]

/-- The bytes of some tokens from the middle of a text, with what follows them. -/
theorem tokens_run (bytes : Bytes) (start width : Nat) :
    ∃ run, run = (bytes.drop (Token.total ((tokens bytes).take start))).take
        (Token.total (((tokens bytes).drop start).take width)) ∧
      tokens (run ++ bytes.drop (Token.total ((tokens bytes).take (start + width)))) =
        ((tokens bytes).drop start).take width ++ tokens (bytes.drop (Token.total ((tokens bytes).take (start + width)))) ∧
      Token.total (((tokens bytes).drop start).take width) = run.length := by
  have sum := Token.total_take_add (tokens bytes) start width
  refine ⟨_, rfl, ?_, ?_⟩
  · conv => lhs; rw [sum, ← List.drop_drop, List.take_append_drop, ← drop_tokens]
    rw [← drop_tokens, ← List.drop_drop, List.take_append_drop]
  · have fits := Token.total_take_le (tokens bytes) (start + width)
    rw [total_tokens, sum] at fits
    rw [List.length_take, List.length_drop]
    omega

/-- A token is the next one of what is left of the text, and something is left. -/
theorem getElem?_tokens (here : (tokens bytes)[k]? = some token) :
    ∃ c rest, bytes.drop (Token.total ((tokens bytes).take k)) = c :: rest ∧ token = next (c :: rest) := by
  have head : ((tokens bytes).drop k)[0]? = some token := by rw [List.getElem?_drop, Nat.add_zero, here]
  rw [drop_tokens] at head
  cases left : bytes.drop (Token.total ((tokens bytes).take k)) with
  | nil => simp [left, tokens] at head
  | cons c rest =>
    rw [left, tokens_ne_nil (by simp)] at head
    exact ⟨c, rest, rfl, (Option.some.inj head).symm⟩

/-- Wherever a token begins, it is the next one of what is left of the text. -/
theorem getElem?_of_ahead {c : UInt8} {rest : Bytes} (left : Token.ahead (tokens bytes) bytes k = c :: rest) :
    (tokens bytes)[k]? = some (next (c :: rest)) := by
  have following := drop_tokens bytes k
  rw [Token.ahead] at left
  rw [left, tokens_ne_nil (List.cons_ne_nil c rest)] at following
  rw [← Nat.add_zero k, ← List.getElem?_drop, following]
  rfl

theorem length_pos_of_mem_tokens (member : token ∈ tokens bytes) : 0 < token.length := by
  obtain ⟨k, here⟩ := List.mem_iff_getElem?.mp member
  obtain ⟨c, rest, -, rfl⟩ := getElem?_tokens here
  exact next_length_pos c rest

/-- There are no more tokens than bytes. -/
theorem length_tokens_le (bytes : Bytes) : (tokens bytes).length ≤ bytes.length := by
  rw [← total_tokens bytes]
  exact Token.length_le_total fun _ member => length_pos_of_mem_tokens member

theorem kind_ne_eof_of_mem_tokens (member : token ∈ tokens bytes) : token.kind ≠ .eof := by
  obtain ⟨k, here⟩ := List.mem_iff_getElem?.mp member
  obtain ⟨c, rest, -, rfl⟩ := getElem?_tokens here
  exact next_kind_ne_eof c rest

/-- Between two tokens no character is cut. -/
theorem tokens_characterEnd (inRange : k < (tokens bytes).length) :
    CharacterEnd bytes (Token.total ((tokens bytes).take (k + 1))) := by
  have here : (tokens bytes)[k]? = some (tokens bytes)[k] := List.getElem?_eq_getElem inRange
  obtain ⟨c, rest, left, same⟩ := getElem?_tokens here
  rw [Token.total_take_succ here, same, ← left]
  exact (next_characterEnd _).of_drop

end Scan
end CssLex
