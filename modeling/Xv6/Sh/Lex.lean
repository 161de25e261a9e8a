import Mathlib.Data.List.Basic

/-!
# sh.c: the scanner

The command line is a C string in memory: `buf` is the memory, the line is the `es` bytes from
address 0, and `buf es` is its NUL (`NulTerm`). `gettoken` and `peek` read memory through a
pointer `s` as the C code does, so a lemma that they read nothing past the NUL is a statement
about them, not about the way they are written down here. Loops are bounded by `s < es` in the
source; each gets one turn of fuel for every byte before `es`, which is all it can use.

`tokens s` is the sequence of tokens `gettoken` returns from `s` on until it reports the end: a
word, with its first byte `q` and the byte `eq` past it, or a symbol (`+` for `>>`).
`gettoken_tokens` unfolds it one token at a time, and `peek_tokens` says that `peek` only skips
the blanks before the next one.
-/

namespace Xv6.Sh

/-- `whitespace[]`. -/
def whitespace : List Char := [' ', '\t', '\r', '\n', '\x0b']

/-- `symbols[]`. -/
def symbols : List Char := ['<', '|', '>', '&', ';', '(', ')']

/-- `strchr(s, c) != 0` for the C string `s`: `c` is one of its bytes (its NUL never matches). -/
def strchr (s : List Char) (c : Char) : Bool := s.contains c

/-- A byte of a word: neither white space nor a symbol. -/
def wordChar (c : Char) : Bool := !strchr whitespace c && !strchr symbols c

/-- The line is a C string: `es` bytes, none of them NUL, then the NUL. -/
structure NulTerm (buf : Nat → Char) (es : Nat) : Prop where
  nul : buf es = '\x00'
  body : ∀ i < es, buf i ≠ '\x00'

/-- A token: a word, from `q` to before `eq`, or a symbol; `+` stands for `>>`. -/
inductive Tok
  | word (q eq : Nat)
  | sym (c : Char)
  deriving DecidableEq, Repr

/-- The token for what `gettoken` returns: `'a'` is a word. -/
def tokOf (t : Char) (q eq : Nat) : Tok := if t = 'a' then .word q eq else .sym t

section Scan

variable (buf : Nat → Char) (es : Nat)

/-- `while(s < es && p(*s)) s++;`, with `n` turns. -/
def skip (p : Char → Bool) : Nat → Nat → Nat
  | 0, s => s
  | n + 1, s => if s < es ∧ p (buf s) = true then skip p n (s + 1) else s

/-- `while(s < es && strchr(whitespace, *s)) s++;` -/
def skipws (s : Nat) : Nat := skip buf es (strchr whitespace) (es - s) s

/-- The `switch` of `gettoken` at the first byte `s` of a token: the token, and `eq`. -/
def scanToken (s : Nat) : Char × Nat :=
  match buf s with
  | '\x00' => ('\x00', s)
  | '|' | '(' | ')' | ';' | '&' | '<' => (buf s, s + 1)
  | '>' => if buf (s + 1) = '>' then ('+', s + 2) else ('>', s + 1)
  | _ => ('a', skip buf es wordChar (es - s) s)

/-- `gettoken(ps, es, &q, &eq)`: the token, `q`, `eq`, and the new `*ps`. -/
def gettoken (s : Nat) : Char × Nat × Nat × Nat :=
  let q := skipws buf es s
  let (ret, eq) := scanToken buf es q
  (ret, q, eq, skipws buf es eq)

/-- `peek(ps, es, toks)`: whether the next token starts with a byte of `toks`, and the new `*ps`. -/
def peek (s : Nat) (toks : List Char) : Bool × Nat :=
  let s := skipws buf es s
  (buf s != '\x00' && strchr toks (buf s), s)

/-- The tokens from `s` on, `n` of them at most. -/
def tokensN : Nat → Nat → List Tok
  | 0, _ => []
  | n + 1, s =>
    let (t, q, eq, s') := gettoken buf es s
    if t = '\x00' then [] else tokOf t q eq :: tokensN n s'

/-- The tokens from `s` on: each takes a byte at least, so there are fewer than the bytes left. -/
def tokens (s : Nat) : List Tok := tokensN buf es (es + 1 - s) s

end Scan

/-! ### The loops -/

section Loops

variable {buf buf' : Nat → Char} {es : Nat}

/-- A loop `while(s < es && p(*s)) s++;` stops at `es` or at the first byte that fails `p`, and
passes only bytes that pass it. -/
theorem skip_spec (p : Char → Bool) : ∀ n s, s ≤ es → es - s ≤ n →
    s ≤ skip buf es p n s ∧ skip buf es p n s ≤ es ∧
    (∀ i, s ≤ i → i < skip buf es p n s → p (buf i) = true) ∧
    (skip buf es p n s < es → p (buf (skip buf es p n s)) = false)
  | 0, s, hs, hn => by
    obtain rfl : s = es := by omega
    exact ⟨Nat.le_refl _, Nat.le_refl _, fun i hi hi' => absurd hi' (by rw [skip]; omega),
      fun hlt => absurd hlt (by rw [skip]; omega)⟩
  | n + 1, s, hs, hn => by
    unfold skip
    split_ifs with hc
    · obtain ⟨h₁, h₂, h₃, h₄⟩ := skip_spec p n (s + 1) (by omega) (by omega)
      refine ⟨by omega, h₂, fun i hi hi' => ?_, h₄⟩
      rcases Nat.eq_or_lt_of_le hi with rfl | hi
      · exact hc.2
      · exact h₃ i hi hi'
    · refine ⟨Nat.le_refl _, hs, fun i hi hi' => absurd hi' (by omega), fun hlt => ?_⟩
      simpa [hlt] using hc

theorem skip_congr (hb : ∀ i < es, buf' i = buf i) (p : Char → Bool) :
    ∀ n s, skip buf' es p n s = skip buf es p n s
  | 0, _ => rfl
  | n + 1, s => by
    unfold skip
    by_cases hs : s < es
    · rw [hb s hs, skip_congr hb p n (s + 1)]
    · simp [hs]

theorem skip_of_not {p : Char → Bool} {n s : Nat} (h : s < es → p (buf s) = false) : skip buf es p n s = s := by
  cases n with
  | zero => rfl
  | succ n =>
    unfold skip
    rw [if_neg]
    rintro ⟨hs, hp⟩
    rw [h hs] at hp
    cases hp

end Loops

/-! ### One token -/

section Token

variable {buf buf' : Nat → Char} {es s : Nat}

theorem skipws_spec (hs : s ≤ es) :
    s ≤ skipws buf es s ∧ skipws buf es s ≤ es ∧
    (∀ i, s ≤ i → i < skipws buf es s → strchr whitespace (buf i) = true) ∧
    (skipws buf es s < es → strchr whitespace (buf (skipws buf es s)) = false) :=
  skip_spec _ _ _ hs (Nat.le_refl _)

theorem skipws_skipws (hs : s ≤ es) : skipws buf es (skipws buf es s) = skipws buf es s :=
  skip_of_not (skipws_spec hs).2.2.2

theorem scanToken_nul (h : buf s = '\x00') : scanToken buf es s = ('\x00', s) := by
  simp [scanToken, h]

theorem scanToken_sym (h : buf s ∈ ['|', '(', ')', ';', '&', '<']) : scanToken buf es s = (buf s, s + 1) := by
  simp only [List.mem_cons, List.not_mem_nil, or_false] at h
  rcases h with h | h | h | h | h | h <;> simp [scanToken, h]

theorem scanToken_gt (h : buf s = '>') :
    scanToken buf es s = if buf (s + 1) = '>' then ('+', s + 2) else ('>', s + 1) := by
  simp [scanToken, h]

theorem scanToken_word (h : wordChar (buf s) = true) (h0 : buf s ≠ '\x00') :
    scanToken buf es s = ('a', skip buf es wordChar (es - s) s) := by
  unfold scanToken
  split <;> simp_all [wordChar, strchr, symbols]

theorem NulTerm.eq_es_iff (h : NulTerm buf es) {q : Nat} (hq : q ≤ es) : buf q = '\x00' ↔ q = es :=
  ⟨fun h0 => by
    by_contra hne
    exact h.body q (by omega) h0, fun he => he ▸ h.nul⟩

/-- At a byte that is not blank, the `switch` reports NUL exactly at `es`, and otherwise a token of
at least one byte within the line. -/
theorem scanToken_spec (h : NulTerm buf es) {q : Nat} (hq : q ≤ es)
    (hws : q < es → strchr whitespace (buf q) = false) :
    ((scanToken buf es q).1 = '\x00' ↔ q = es) ∧ q ≤ (scanToken buf es q).2 ∧ (scanToken buf es q).2 ≤ es ∧
      ((scanToken buf es q).1 ≠ '\x00' → q < (scanToken buf es q).2) := by
  by_cases he : q = es
  · subst he
    rw [scanToken_nul h.nul]
    exact ⟨iff_of_true rfl rfl, Nat.le_refl _, Nat.le_refl _, fun h0 => absurd rfl h0⟩
  have hlt : q < es := by omega
  have h0 : buf q ≠ '\x00' := h.body q hlt
  by_cases hs : buf q ∈ ['|', '(', ')', ';', '&', '<']
  · rw [scanToken_sym hs]
    exact ⟨iff_of_false h0 he, by omega, by omega, fun _ => by omega⟩
  by_cases hg : buf q = '>'
  · -- `>` or `>>`: a second `>` is not the NUL, so it lies before `es`
    rw [scanToken_gt hg]
    split_ifs with hg₂
    · have : q + 1 < es := by
        by_contra hn
        have : q + 1 = es := by omega
        rw [this, h.nul] at hg₂
        cases hg₂
      exact ⟨iff_of_false (by simp) he, by omega, by omega, fun _ => by omega⟩
    · exact ⟨iff_of_false (by simp) he, by omega, by omega, fun _ => by omega⟩
  · -- a word: its first byte passes the test, so the loop takes it
    have hw : wordChar (buf q) = true := by
      have hsym : strchr symbols (buf q) = false := by
        simp only [List.mem_cons, List.not_mem_nil, or_false, not_or] at hs
        obtain ⟨h₁, h₂, h₃, h₄, h₅, h₆⟩ := hs
        simp [strchr, symbols, h₁, h₂, h₃, h₄, h₅, h₆, hg]
      simp [wordChar, hws hlt, hsym]
    rw [scanToken_word hw h0]
    obtain ⟨h₁, h₂, -, h₄⟩ := @skip_spec buf es wordChar (es - q) q hq (Nat.le_refl _)
    refine ⟨iff_of_false (by simp) he, h₁, h₂, fun _ => ?_⟩
    rcases Nat.eq_or_lt_of_le h₁ with heq | hlt'
    · rw [← heq] at h₄
      rw [h₄ hlt] at hw
      cases hw
    · exact hlt'

end Token

/-! ### `gettoken` and the token sequence -/

section Tokens

variable {buf buf' : Nat → Char} {es s : Nat}

theorem gettoken_eq : gettoken buf es s = ((scanToken buf es (skipws buf es s)).1, skipws buf es s,
    (scanToken buf es (skipws buf es s)).2, skipws buf es (scanToken buf es (skipws buf es s)).2) := rfl

theorem gettoken_skipws (hs : s ≤ es) : gettoken buf es (skipws buf es s) = gettoken buf es s := by
  unfold gettoken
  rw [skipws_skipws hs]

/-- Where `gettoken` leaves its pointers: `q` at the token, past the blanks; `eq` past the token;
`*ps` past the blanks after it; all within the line. It reports NUL exactly at `es`, and every
other token takes a byte at least. -/
theorem gettoken_spec (h : NulTerm buf es) (hs : s ≤ es) {t : Char} {q e s' : Nat}
    (hg : gettoken buf es s = (t, q, e, s')) :
    s ≤ q ∧ q ≤ e ∧ e ≤ s' ∧ s' ≤ es ∧ (t = '\x00' ↔ q = es) ∧ (t ≠ '\x00' → q < e) := by
  obtain ⟨hq₁, hq₂, -, hws⟩ := @skipws_spec buf es _ hs
  obtain ⟨ht, he₁, he₂, hpos⟩ := scanToken_spec h hq₂ hws
  rw [gettoken_eq, Prod.mk.injEq, Prod.mk.injEq, Prod.mk.injEq] at hg
  obtain ⟨rfl, rfl, rfl, rfl⟩ := hg
  obtain ⟨hs₁, hs₂, -, -⟩ := @skipws_spec buf es _ he₂
  exact ⟨hq₁, he₁, hs₁, hs₂, ht, hpos⟩

/-- A token other than NUL, `|();&<`, `>` and `>>` is a word: its end comes from the word loop. -/
theorem scanToken_a {q : Nat} (ha : (scanToken buf es q).1 = 'a') :
    (scanToken buf es q).2 = skip buf es wordChar (es - q) q := by
  revert ha
  unfold scanToken
  split <;> (try split) <;> simp_all

/-- The bytes of a word: all of `[q, eq)` pass the word loop's test, and the byte at `eq` does not
(or is the NUL at `es`). -/
structure WordAt (buf : Nat → Char) (es q e : Nat) : Prop where
  lt : q < e
  le : e ≤ es
  body : ∀ i, q ≤ i → i < e → wordChar (buf i) = true
  stop : e < es → wordChar (buf e) = false

theorem gettoken_word (h : NulTerm buf es) (hs : s ≤ es) {q e s' : Nat}
    (hg : gettoken buf es s = ('a', q, e, s')) : WordAt buf es q e := by
  obtain ⟨-, -, hes, hs', -, hpos⟩ := gettoken_spec h hs hg
  rw [gettoken_eq, Prod.mk.injEq, Prod.mk.injEq, Prod.mk.injEq] at hg
  obtain ⟨ha, rfl, rfl, -⟩ := hg
  obtain ⟨-, -, hbody, hstop⟩ := @skip_spec buf es wordChar (es - skipws buf es s)
    (skipws buf es s) (skipws_spec hs).2.1 (Nat.le_refl _)
  rw [← scanToken_a ha] at hbody hstop
  exact ⟨hpos (by decide), by omega, hbody, hstop⟩

theorem tokensN_stable (h : NulTerm buf es) :
    ∀ n m s, s ≤ es → es + 1 - s ≤ n → es + 1 - s ≤ m → tokensN buf es n s = tokensN buf es m s
  | 0, _, _, _, hn, _ => absurd hn (by omega)
  | _ + 1, 0, _, _, _, hm => absurd hm (by omega)
  | n + 1, m + 1, s, hs, hn, hm => by
    rcases hg : gettoken buf es s with ⟨t, q, e, s'⟩
    obtain ⟨hsq, hqe, hes', hs', -, hpos⟩ := gettoken_spec h hs hg
    simp only [tokensN, hg]
    split_ifs with h0
    · rfl
    · have := hpos h0
      rw [tokensN_stable h n m s' hs' (by omega) (by omega)]

/-- The token list, one token at a time: it ends at the NUL, and otherwise goes on from where
`gettoken` leaves `*ps`. -/
theorem tokens_eq (h : NulTerm buf es) (hs : s ≤ es) {t : Char} {q e s' : Nat}
    (hg : gettoken buf es s = (t, q, e, s')) :
    tokens buf es s = if t = '\x00' then [] else tokOf t q e :: tokens buf es s' := by
  obtain ⟨hsq, hqe, hes', hs', -, hpos⟩ := gettoken_spec h hs hg
  have hn : es + 1 - s = (es - s) + 1 := by omega
  rw [tokens, hn]
  simp only [tokensN, hg]
  split_ifs with h0
  · rfl
  · have := hpos h0
    rw [tokens, tokensN_stable h (es - s) (es + 1 - s') s' hs' (by omega) (Nat.le_refl _)]

theorem tokens_skipws (h : NulTerm buf es) (hs : s ≤ es) : tokens buf es (skipws buf es s) = tokens buf es s := by
  rcases hg : gettoken buf es s with ⟨t, q, e, s'⟩
  rw [tokens_eq h (skipws_spec hs).2.1 ((gettoken_skipws hs).trans hg), tokens_eq h hs hg]

theorem tokOf_sym {t : Char} (ht : t ≠ 'a') (q e : Nat) : tokOf t q e = .sym t := by
  simp [tokOf, ht]

theorem tokens_of_gettoken (h : NulTerm buf es) (hs : s ≤ es) {t : Char} {q e s' : Nat}
    (hg : gettoken buf es s = (t, q, e, s')) (ht : t ≠ '\x00') :
    s < s' ∧ s' ≤ es ∧ tokens buf es s = tokOf t q e :: tokens buf es s' := by
  obtain ⟨hsq, hqe, hes', hs', -, hpos⟩ := gettoken_spec h hs hg
  have := hpos ht
  exact ⟨by omega, hs', by rw [tokens_eq h hs hg, if_neg ht]⟩

theorem tokens_es (h : NulTerm buf es) : tokens buf es es = [] := by
  rcases hg : gettoken buf es es with ⟨t, q, e, s'⟩
  obtain ⟨hq, hqe, hes, hs', ht, -⟩ := gettoken_spec h (Nat.le_refl _) hg
  rw [tokens_eq h (Nat.le_refl _) hg, if_pos (ht.2 (by omega))]

theorem tokens_of_nul (h : NulTerm buf es) (hs : s ≤ es) {q e s' : Nat}
    (hg : gettoken buf es s = ('\x00', q, e, s')) : s' = es ∧ tokens buf es s = tokens buf es s' := by
  obtain ⟨-, hqe, hes', hs', ht, -⟩ := gettoken_spec h hs hg
  have hq : q = es := ht.1 rfl
  have hs'e : s' = es := by omega
  refine ⟨hs'e, ?_⟩
  rw [tokens_eq h hs hg, hs'e, tokens_es h, if_pos rfl]

theorem peek_fst {toks : List Char} :
    (peek buf es s toks).1 = true ↔ buf (skipws buf es s) ≠ '\x00' ∧ buf (skipws buf es s) ∈ toks := by
  simp [peek, strchr]

/-- When `peek` has seen a symbol, `gettoken` returns it (`>>` as `+`) and moves past it. -/
theorem gettoken_of_peek (h : NulTerm buf es) (hs : s ≤ es) {toks : List Char}
    (htoks : ∀ c ∈ toks, c ∈ symbols) {s₁ : Nat} (hk : peek buf es s toks = (true, s₁))
    {t : Char} {q e s' : Nat} (hg : gettoken buf es s₁ = (t, q, e, s')) :
    (t = buf s₁ ∨ buf s₁ = '>' ∧ t = '+') ∧ s < s' ∧ s' ≤ es ∧
      tokens buf es s = .sym t :: tokens buf es s' := by
  have hs₁ : skipws buf es s = s₁ := congrArg Prod.snd hk
  obtain ⟨hb0, hbt⟩ := peek_fst.1 (congrArg Prod.fst hk)
  rw [hs₁] at hb0 hbt
  obtain ⟨hss₁, hle, -, -⟩ := @skipws_spec buf es _ hs
  rw [hs₁] at hss₁ hle
  -- `t` is read off the `switch` at `s₁`, which `peek` left past the blanks
  have ht : t = buf s₁ ∨ buf s₁ = '>' ∧ t = '+' := by
    have hsym : buf s₁ ∈ symbols := htoks _ hbt
    have htq : (scanToken buf es s₁).1 = t := by
      rw [gettoken_eq, ← hs₁, skipws_skipws hs] at hg
      rw [← hs₁]
      exact congrArg Prod.fst hg
    by_cases hgt : buf s₁ = '>'
    · rw [scanToken_gt hgt] at htq
      split_ifs at htq
      · exact Or.inr ⟨hgt, htq.symm⟩
      · exact Or.inl (htq.symm.trans hgt.symm)
    · have h6 : buf s₁ ∈ ['|', '(', ')', ';', '&', '<'] := by
        simp only [symbols, List.mem_cons, List.not_mem_nil, or_false] at hsym ⊢
        tauto
      rw [scanToken_sym h6] at htq
      exact Or.inl htq.symm
  have ht0 : t ≠ '\x00' := by
    rcases ht with ht | ⟨-, ht⟩ <;> rw [ht]
    · exact hb0
    · decide
  have hta : t ≠ 'a' := by
    have hsym : buf s₁ ∈ symbols := htoks _ hbt
    rcases ht with ht | ⟨-, ht⟩ <;> rw [ht]
    · rintro ha
      rw [ha] at hsym
      simp [symbols] at hsym
    · decide
  obtain ⟨hlt, hs', htok⟩ := tokens_of_gettoken h hle hg ht0
  refine ⟨ht, by omega, hs', ?_⟩
  rw [← tokens_skipws h hs, hs₁, htok, tokOf_sym hta]

theorem gettoken_of_peek_one (h : NulTerm buf es) (hs : s ≤ es) {c : Char}
    (hc : c ∈ ['|', '(', ')', ';', '&']) {s₁ : Nat} (hk : peek buf es s [c] = (true, s₁))
    {t : Char} {q e s' : Nat} (hg : gettoken buf es s₁ = (t, q, e, s')) :
    t = c ∧ s < s' ∧ s' ≤ es ∧ tokens buf es s = .sym c :: tokens buf es s' := by
  have hsym : ∀ x ∈ [c], x ∈ symbols := by
    simp only [List.mem_cons, List.not_mem_nil, or_false] at hc
    simp only [List.mem_singleton, forall_eq, symbols]
    rcases hc with rfl | rfl | rfl | rfl | rfl <;> decide
  have hbc : buf s₁ = c := by
    have := (peek_fst.1 (congrArg Prod.fst hk)).2
    rwa [show skipws buf es s = s₁ from congrArg Prod.snd hk, List.mem_singleton] at this
  obtain ⟨ht, hs', hs'e, htok⟩ := gettoken_of_peek h hs hsym hk hg
  have htc : t = c := by
    rcases ht with ht | ⟨hgt, -⟩
    · exact ht.trans hbc
    · rw [hbc] at hgt
      subst hgt
      simp at hc
  subst htc
  exact ⟨rfl, hs', hs'e, htok⟩

theorem peek_skip (h : NulTerm buf es) (hs : s ≤ es) {toks : List Char} {b : Bool} {s₁ : Nat}
    (hk : peek buf es s toks = (b, s₁)) : s ≤ s₁ ∧ s₁ ≤ es ∧ tokens buf es s = tokens buf es s₁ := by
  have hs₁ : skipws buf es s = s₁ := congrArg Prod.snd hk
  obtain ⟨h₁, h₂, -, -⟩ := @skipws_spec buf es _ hs
  rw [hs₁] at h₁ h₂
  exact ⟨h₁, h₂, by rw [← hs₁, tokens_skipws h hs]⟩

theorem wordAt_of_mem_tokens (h : NulTerm buf es) {q e : Nat} :
    ∀ n s, s ≤ es → es - s < n → Tok.word q e ∈ tokens buf es s → WordAt buf es q e
  | 0, _, _, hn, _ => absurd hn (by omega)
  | n + 1, s, hs, hn, hmem => by
    rcases hg : gettoken buf es s with ⟨t, q', e', s'⟩
    rw [tokens_eq h hs hg] at hmem
    split_ifs at hmem with h0
    · cases hmem
    obtain ⟨hsq, -, hes, hs', -, hpos⟩ := gettoken_spec h hs hg
    have hqe := hpos h0
    rcases List.mem_cons.1 hmem with hw | hw
    · -- the head: only `'a'` makes a word
      by_cases ha : t = 'a'
      · subst ha
        simp only [tokOf, if_true, Tok.word.injEq] at hw
        obtain ⟨rfl, rfl⟩ := hw
        exact gettoken_word h hs hg
      · rw [tokOf_sym ha] at hw
        cases hw
    · exact wordAt_of_mem_tokens h n s' hs' (by omega) hw

/-! The scans read only the line and its terminator. -/

theorem skipws_congr (hb : ∀ i ≤ es, buf' i = buf i) : skipws buf' es s = skipws buf es s :=
  skip_congr (fun i hi => hb i (Nat.le_of_lt hi)) _ _ _

theorem scanToken_congr (h : NulTerm buf es) (hb : ∀ i ≤ es, buf' i = buf i) {q : Nat} (hq : q ≤ es) :
    scanToken buf' es q = scanToken buf es q := by
  by_cases hgt : buf q = '>'
  · -- only `>` looks at a second byte, which the NUL bounds
    have hlt : q < es := by
      rcases Nat.eq_or_lt_of_le hq with rfl | hlt
      · rw [h.nul] at hgt
        cases hgt
      · exact hlt
    rw [scanToken_gt ((hb q hq).trans hgt), scanToken_gt hgt, hb (q + 1) hlt]
  · unfold scanToken
    rw [hb q hq, skip_congr (fun i hi => hb i (Nat.le_of_lt hi))]
    split <;> simp_all

theorem gettoken_congr (h : NulTerm buf es) (hb : ∀ i ≤ es, buf' i = buf i) (hs : s ≤ es) :
    gettoken buf' es s = gettoken buf es s := by
  rw [gettoken_eq, gettoken_eq, skipws_congr hb, scanToken_congr h hb (skipws_spec hs).2.1, skipws_congr hb]

theorem peek_congr (hb : ∀ i ≤ es, buf' i = buf i) (hs : s ≤ es) (toks : List Char) :
    peek buf' es s toks = peek buf es s toks := by
  simp only [peek, skipws_congr hb, hb _ (skipws_spec hs).2.1]

/-! ### What `peek` and `gettoken` see of the token list -/

/-- The byte a token starts with, as `peek` sees it: `>>` starts with `>`, and a word with a byte
that is no symbol, here `a`. -/
def Tok.lead : Tok → Char
  | .word _ _ => 'a'
  | .sym c => if c = '+' then '>' else c

/-- Whether the token list starts with a token whose first byte is in `toks`. -/
def headIn (ts : List Tok) (toks : List Char) : Bool := ts.head?.any fun t => toks.contains t.lead

@[simp] theorem headIn_nil (toks : List Char) : headIn [] toks = false := rfl

@[simp] theorem headIn_cons (t : Tok) (ts : List Tok) (toks : List Char) :
    headIn (t :: ts) toks = toks.contains t.lead := rfl

theorem headIn_append_of_ne_nil {ts : List Tok} (hne : ts ≠ []) (rest : List Tok) (toks : List Char) :
    headIn (ts ++ rest) toks = headIn ts toks := by
  cases ts with
  | nil => exact absurd rfl hne
  | cons t ts => rfl

theorem tokOf_eq_sym {c : Char} {q e : Nat} {t : Char} (h : tokOf c q e = .sym t) : c = t := by
  unfold tokOf at h
  split_ifs at h
  injection h

theorem tokOf_eq_word {c : Char} {q e q' e' : Nat} (h : tokOf c q e = .word q' e') : c = 'a' ∧ q = q' ∧ e = e' := by
  unfold tokOf at h
  split_ifs at h with ha
  injection h with h₁ h₂
  exact ⟨ha, h₁, h₂⟩

theorem gettoken_of_tokens (h : NulTerm buf es) (hs : s ≤ es) {t : Tok} {rest : List Tok}
    (ht : tokens buf es s = t :: rest) :
    ∃ c q e s', gettoken buf es s = (c, q, e, s') ∧ tokOf c q e = t ∧ s < s' ∧ s' ≤ es ∧
      tokens buf es s' = rest := by
  rcases hg : gettoken buf es s with ⟨c, q, e, s'⟩
  have hc : c ≠ '\x00' := by
    rintro rfl
    rw [tokens_eq h hs hg, if_pos rfl] at ht
    cases ht
  obtain ⟨hlt, hs', htok⟩ := tokens_of_gettoken h hs hg hc
  rw [htok] at ht
  obtain ⟨h₁, h₂⟩ := List.cons.inj ht
  exact ⟨c, q, e, s', rfl, h₁, hlt, hs', h₂⟩

theorem gettoken_of_tokens_nil (h : NulTerm buf es) (hs : s ≤ es) (ht : tokens buf es s = [])
    {c : Char} {q e s' : Nat} (hg : gettoken buf es s = (c, q, e, s')) : c = '\x00' ∧ q = es ∧ s' = es := by
  by_cases hc : c = '\x00'
  · subst hc
    obtain ⟨-, -, -, -, hq, -⟩ := gettoken_spec h hs hg
    exact ⟨rfl, hq.1 rfl, (tokens_of_nul h hs hg).1⟩
  · obtain ⟨-, -, htok⟩ := tokens_of_gettoken h hs hg hc
    rw [htok] at ht
    cases ht

theorem tokens_at (h : NulTerm buf es) (hs : s ≤ es) (hlt : skipws buf es s < es) :
    ∃ s', tokens buf es s = tokOf (scanToken buf es (skipws buf es s)).1 (skipws buf es s)
      (scanToken buf es (skipws buf es s)).2 :: tokens buf es s' := by
  have hg : gettoken buf es (skipws buf es s) = ((scanToken buf es (skipws buf es s)).1, skipws buf es s,
      (scanToken buf es (skipws buf es s)).2, skipws buf es (scanToken buf es (skipws buf es s)).2) := by
    rw [gettoken_eq, skipws_skipws hs]
  obtain ⟨-, hle, -, hws⟩ := @skipws_spec buf es _ hs
  obtain ⟨hc, -⟩ := scanToken_spec h hle hws
  rw [← tokens_skipws h hs, tokens_eq h hle hg, if_neg (fun h0 => absurd (hc.1 h0) (Nat.ne_of_lt hlt))]
  exact ⟨_, rfl⟩

/-- `peek` for symbols sees the head of the token list: `>>` is seen as `>`, and a word or the NUL
as no symbol. -/
theorem peek_eq (h : NulTerm buf es) (hs : s ≤ es) {toks : List Char} (htoks : ∀ c ∈ toks, c ∈ symbols) :
    peek buf es s toks = (headIn (tokens buf es s) toks, skipws buf es s) := by
  obtain ⟨-, hle, -, hws⟩ := @skipws_spec buf es _ hs
  show (buf (skipws buf es s) != '\x00' && strchr toks (buf (skipws buf es s)), skipws buf es s) = _
  congr 1
  rcases Nat.eq_or_lt_of_le hle with he | hlt
  · rw [← tokens_skipws h hs, he, h.nul, tokens_es h]
    rfl
  obtain ⟨s', hts⟩ := tokens_at h hs hlt
  rw [hts, headIn_cons, bne_iff_ne.2 (h.body _ hlt), Bool.true_and, strchr]
  by_cases hsym : buf (skipws buf es s) ∈ ['|', '(', ')', ';', '&', '<']
  · -- a one-byte symbol is its own token
    have ha : buf (skipws buf es s) ≠ 'a' := fun ha => by simp [ha] at hsym
    rw [scanToken_sym hsym, tokOf_sym ha]
    simp only [Tok.lead]
    rw [if_neg (fun hp => by simp [hp] at hsym)]
  by_cases hgt : buf (skipws buf es s) = '>'
  · rw [scanToken_gt hgt]
    split_ifs <;> simp [tokOf, Tok.lead, hgt]
  · -- a word: neither its first byte nor `a` is a symbol `peek` looks for
    have hw : wordChar (buf (skipws buf es s)) = true := by
      simp only [List.mem_cons, List.not_mem_nil, or_false, not_or] at hsym
      obtain ⟨h₁, h₂, h₃, h₄, h₅, h₆⟩ := hsym
      have hs' : strchr symbols (buf (skipws buf es s)) = false := by
        simp [strchr, symbols, h₁, h₂, h₃, h₄, h₅, h₆, hgt]
      simp [wordChar, hws hlt, hs']
    have hn : buf (skipws buf es s) ∉ toks := fun hm => by
      have := htoks _ hm
      simp only [symbols, List.mem_cons, List.not_mem_nil, or_false] at this
      rcases this with h' | h' | h' | h' | h' | h' | h' <;> simp [wordChar, strchr, symbols, h'] at hw
    have ha : 'a' ∉ toks := fun hm => by simpa [symbols] using htoks _ hm
    rw [scanToken_word hw (h.body _ hlt)]
    simp [tokOf, Tok.lead, hn, ha]

theorem skipws_of_tokens_nil (h : NulTerm buf es) (hs : s ≤ es) (ht : tokens buf es s = []) :
    skipws buf es s = es := by
  rcases hg : gettoken buf es s with ⟨c, q, e, s'⟩
  obtain ⟨-, hq, -⟩ := gettoken_of_tokens_nil h hs ht hg
  rw [gettoken_eq, Prod.mk.injEq, Prod.mk.injEq] at hg
  rw [hg.2.1, hq]

end Tokens


end Xv6.Sh
