import Xv6.Lib.Pattern

/-!
# grep's regular-expression matcher

`match`, `matchhere` and `matchstar` of grep.c (Kernighan and Pike's matcher). A C string is the
list of its characters before the terminator, so `*text != '\0'` is `text ≠ []` and `re[1]` is
the second element when there is one. `matchstar` is a loop over the text that tries `matchhere`
on the rest of the pattern; here it takes that test as the function `here`, so that `matchhere`
recurses structurally on the pattern and every function is total.

The meaning of a pattern is given apart from the matcher: `compile` reads the syntax grep's comment gives (a
character followed by `*` is a starred item, a final `$` anchors the end, `.` is any character,
every other character, `^`, `$` and `*` included, is itself), and `Pattern.Lang` is the language
of the items. `match_iff_matches` says the backtracking search decides it: `match re text` holds exactly
when some factor of `text` (a prefix when `re` begins with `^`, a suffix when it ends with `$`)
is a word of the pattern.
-/

namespace Xv6.Grep

open Pattern

/-- matchstar: search for c*re at beginning of text; `here` is `matchhere re`. -/
def matchstar (c : Char) (here : List Char → Bool) : List Char → Bool
  | [] => here []
  | t :: text => here (t :: text) || ((t == c || c == '.') && matchstar c here text)

/-- matchhere: search for re at beginning of text. -/
def matchhere : List Char → List Char → Bool
  | [], _ => true
  | c :: '*' :: re, text => matchstar c (matchhere re) text
  | ['$'], text => text.isEmpty
  | c :: re, t :: text => (c == '.' || c == t) && matchhere re text
  | _ :: _, [] => false

/-- The do-while loop of `match`: `matchhere` at each suffix of the text, the empty one last. -/
def matchLoop (re : List Char) : List Char → Bool
  | [] => matchhere re []
  | t :: text => matchhere re (t :: text) || matchLoop re text

def «match» : List Char → List Char → Bool
  | '^' :: re, text => matchhere re text
  | re, text => matchLoop re text

/-! ### What a pattern means -/

/-- What a pattern character matches: `.` any character, any other character itself. -/
def atom (c : Char) : Char → Bool := if c = '.' then fun _ => true else (· == c)

/-- The items of a pattern (past a leading `^`), and whether it ends in an anchoring `$`. -/
def compile : List Char → List (Item Char) × Bool
  | [] => ([], false)
  | c :: '*' :: re => (.star (atom c) :: (compile re).1, (compile re).2)
  | ['$'] => ([], true)
  | c :: re => (.one (atom c) :: (compile re).1, (compile re).2)

/-- Some factor of `text` is a word of the pattern: a prefix when `re` begins with `^`, and a
suffix when it ends with an anchoring `$`. -/
def Matches : List Char → List Char → Prop
  | '^' :: re, text => Lead (compile re).1 (compile re).2 text
  | re, text => ∃ pre rest, text = pre ++ rest ∧ Lead (compile re).1 (compile re).2 rest

/-! ### The matcher decides the language -/

variable {c t : Char} {re text : List Char}

theorem atom_eq (c t : Char) : atom c t = (c == '.' || c == t) := by
  unfold atom
  by_cases h : c = '.'
  · simp [h]
  · simp [h, BEq.comm]

/-- The loop of `matchstar` tries every run of `c` at the front of the text. -/
theorem matchstar_iff {here : List Char → Bool} :
    matchstar c here text = true ↔ ∃ u v, text = u ++ v ∧ (∀ x ∈ u, atom c x = true) ∧ here v = true := by
  induction text with
  | nil => simp [matchstar]
  | cons t text ih =>
    -- the run is empty, or it takes `t` and a run of the rest
    have ht : (t == c || c == '.') = atom c t := by rw [atom_eq, Bool.or_comm, BEq.comm (a := t)]
    simp only [matchstar, Bool.or_eq_true, Bool.and_eq_true, ht, ih, List.cons_eq_append_iff]
    constructor
    · rintro (h | ⟨hx, u, v, rfl, hu, hv⟩)
      · exact ⟨[], _, .inl ⟨rfl, rfl⟩, by simp, h⟩
      · exact ⟨t :: u, v, .inr ⟨u, rfl, rfl⟩, by simpa [hx] using hu, hv⟩
    · rintro ⟨u, v, (⟨rfl, rfl⟩ | ⟨u', rfl, rfl⟩), hu, hv⟩
      · exact .inl hv
      · simp only [List.mem_cons, forall_eq_or_imp] at hu
        exact .inr ⟨hu.1, u', v, rfl, hu.2, hv⟩

theorem matchhere_once (hs : ∀ r, re ≠ '*' :: r) (hd : ¬(c = '$' ∧ re = [])) :
    matchhere (c :: re) text = match text with
      | t :: text => atom c t && matchhere re text
      | [] => false := by
  cases text with
  | nil => exact matchhere.eq_5 c re (fun r h => hs r h) (fun h h' => hd ⟨h, h'⟩)
  | cons t text =>
    rw [matchhere.eq_4 c re t text (fun r h => hs r h) (fun h h' => hd ⟨h, h'⟩)]
    show _ = (atom c t && matchhere re text)
    rw [atom_eq]

theorem compile_once (hs : ∀ r, re ≠ '*' :: r) (hd : ¬(c = '$' ∧ re = [])) :
    compile (c :: re) = (.one (atom c) :: (compile re).1, (compile re).2) := by
  rw [compile.eq_4 c re (fun r h => hs r h) (fun h h' => hd ⟨h, h'⟩)]

theorem matchhere_once_iff (hs : ∀ r, re ≠ '*' :: r) (hd : ¬(c = '$' ∧ re = []))
    (ih : ∀ text, matchhere re text = true ↔ Lead (compile re).1 (compile re).2 text) :
    matchhere (c :: re) text = true ↔ Lead (compile (c :: re)).1 (compile (c :: re)).2 text := by
  rw [matchhere_once hs hd, compile_once hs hd, lead_one_iff]
  cases text with
  | nil => simp
  | cons t text => simp [ih]

theorem matchhere_star_iff (ih : ∀ text, matchhere re text = true ↔ Lead (compile re).1 (compile re).2 text) :
    matchhere (c :: '*' :: re) text = true ↔
      Lead (compile (c :: '*' :: re)).1 (compile (c :: '*' :: re)).2 text := by
  rw [matchhere, compile, lead_star_iff, matchstar_iff]
  simp only [ih]

/-- `matchhere` decides whether the text begins with a word of the pattern. -/
theorem matchhere_iff : ∀ re text, matchhere re text = true ↔ Lead (compile re).1 (compile re).2 text
  | [], text => by simp [matchhere, compile, lead_nil_iff]
  | [c], text => by
    by_cases hc : c = '$'
    · subst hc
      simp [matchhere, compile, lead_nil_iff]
    · exact matchhere_once_iff (by simp) (by simp [hc]) (matchhere_iff [])
  | c :: d :: re, text => by
    -- a second character `*` makes a starred item; otherwise `c` is matched once
    by_cases hd : d = '*'
    · subst hd
      exact matchhere_star_iff (matchhere_iff re)
    · exact matchhere_once_iff (by simp [hd]) (by simp) (matchhere_iff (d :: re))

theorem matchLoop_iff :
    matchLoop re text = true ↔ ∃ pre rest, text = pre ++ rest ∧ matchhere re rest = true := by
  induction text with
  | nil => simp [matchLoop]
  | cons t text ih =>
    simp only [matchLoop, Bool.or_eq_true, ih, List.cons_eq_append_iff]
    constructor
    · rintro (h | ⟨pre, rest, rfl, h⟩)
      · exact ⟨[], _, .inl ⟨rfl, rfl⟩, h⟩
      · exact ⟨t :: pre, rest, .inr ⟨pre, rfl, rfl⟩, h⟩
    · rintro ⟨pre, rest, (⟨rfl, rfl⟩ | ⟨pre', rfl, rfl⟩), h⟩
      · exact .inl h
      · exact .inr ⟨pre', rest, rfl, h⟩

/-- `match` is total and decides the language: it returns 1 exactly when some factor of the text
(a prefix when the pattern begins with `^`) is a word of the rest of the pattern, and, when that
rest ends in `$` not starred, a suffix. -/
theorem match_iff_matches (re text : List Char) : «match» re text = true ↔ Matches re text := by
  unfold «match» Matches
  split
  · exact matchhere_iff _ text
  · simp only [matchLoop_iff, matchhere_iff]

example : «match» "^a*b.$".toList "aaabc".toList = true := by decide
example : «match» "^b*c".toList "abc".toList = false := by decide

/-! ### The driver

`grep(pattern, fd)` reads into `buf[1024]` after the `m` bytes it holds, asking for
`sizeof(buf) - m - 1` bytes so that `buf[m] = '\0'` still fits. The inner loop prints each line up
to a newline that `strchr` finds before the terminator; then a buffer in which no newline was found
is dropped (`if(p == buf) m = 0`), and otherwise the bytes after the last newline are moved to the
front. The bytes of a file are characters here, as for `match`. -/

/-- The inner `while` loop of `grep` over the C string at `p`, with `line` the characters since `p`
that `strchr` has passed: what `write` prints, and the bytes from the last `p` to `buf + m`. -/
def scanLines (pat : List Char) : List Char → List Char → List Char × List Char
  | line, [] => ([], line)
  | line, c :: s =>
    if c = '\n' then
      -- `*q = 0`, the line is matched and printed with its newline, and `p = q + 1`
      let r := scanLines pat [] s
      ((if «match» pat line then line ++ ['\n'] else []) ++ r.1, r.2)
    -- a NUL read from the file ends the C string: `strchr` returns 0
    else if c = '\x00' then ([], line ++ c :: s)
    else scanLines pat (line ++ [c]) s

/-- How many bytes a `read` asking for `req` gets when `k` is the next chunk size of `ks`: at most
`k + 1` of them, and all it asks for once `ks` has run out. -/
def readSize (ks : List Nat) (req : Nat) : Nat :=
  match ks with
  | [] => req
  | k :: _ => min (k + 1) req

/-- The outer `while` loop of `grep`, with `buf[0..m)` holding `buf` and `input` the bytes not yet
read, split by `read` in the sizes `ks`. -/
def grepLoop (pat : List Char) : Nat → List Char → List Nat → List Char → List Char
  | 0, _, _, _ => []
  | fuel + 1, buf, ks, input =>
    let n := min (readSize ks (1024 - buf.length - 1)) input.length
    -- `read` returns 0 at the end of the file, and when asked for no byte
    if n = 0 then []
    else
      let buf := buf ++ input.take n
      let r := scanLines pat [] buf
      -- `if(p == buf) m = 0;`, and otherwise `m > 0` and `buf[p - buf .. m)` is moved to the front
      let rest := if r.2.length = buf.length then [] else r.2
      r.1 ++ grepLoop pat fuel rest ks.tail (input.drop n)

/-- `grep(pattern, fd)` on a file whose bytes are `input`, read in the sizes `ks`; every read
before the end returns a byte, so `input.length + 1` passes reach the end. -/
def grep (pat input : List Char) (ks : List Nat) : List Char :=
  grepLoop pat (input.length + 1) [] ks input

/-- The lines of a text: its maximal newline-free segments, the last one only when it is not
empty. -/
def lines (text : List Char) : List (List Char) :=
  let ls := text.splitOn '\n'
  if ls.getLast? = some [] then ls.dropLast else ls

/-- The output the text of `grep` asks for: each line that `match` accepts, followed by a newline. -/
def grepSpec (pat input : List Char) : List Char :=
  ((lines input).filter («match» pat)).flatMap (· ++ ['\n'])

/-- A line cut by a read is lost: when the first read returns `ab`, the buffer holds no newline and
is dropped, and the line `abc` is never matched, while one read of the whole file prints it. A
last line without a newline is never printed, however the file is read. -/
theorem grep_output_depends_on_chunks :
    grepSpec "abc".toList "abc\n".toList = "abc\n".toList ∧
    grep "abc".toList "abc\n".toList [] = "abc\n".toList ∧
    grep "abc".toList "abc\n".toList [1] = [] ∧
    grepSpec "abc".toList "abc".toList = "abc\n".toList ∧ grep "abc".toList "abc".toList [] = [] := by
  decide

end Xv6.Grep
