import Xv6.Lib.Except
import Xv6.Sh.Lex
import Xv6.Fs.Sysfile

/-!
# The shell's parser

`parsecmd` of sh.c: a recursive descent over the tokens of `gettoken`, looking ahead with `peek`.
The line is `[0, es)` of the memory `buf`, with its NUL at `es`. Pointers into the line are
positions; a command's words are `(q, eq)` pairs, as the `argv`/`eargv` and `file`/`efile` fields
hold them until `nulterminate` writes a NUL at each `eq`.

Each function takes fuel, spent one unit per call and per loop iteration; `parsecmd` gives the
top call enough for any line (`parsecmd_fuel`). A `panic` of sh.c prints its message and exits the
child that parses, so it is the function's error.

`parseexec` fills the `execcmd` it made after `parseredirs` has wrapped it, through its own
pointer; `fillArgv` does that to the bottom of the redirection chain.

What it computes is stated against the grammar of the comment at the top of sh.c's parser
(`Line`, `Pipe`, `Exec`, `Redirs`, `Simple`): `parseline_sound` and the rest, from which
`parsecmd` returns a derivation of the line's token list.
-/

namespace Xv6.Sh

open Xv6.Fs (O_RDONLY O_WRONLY O_CREATE)

def MAXARGS : Nat := 10

inductive Cmd
  | exec (argv : List (Nat × Nat))
  | redir (cmd : Cmd) (file : Nat × Nat) (mode fd : Nat)
  | pipe (left right : Cmd)
  | list (left right : Cmd)
  | back (cmd : Cmd)
  deriving DecidableEq, Repr

/-- How a parse stops short of a command: a `panic` of sh.c, or the model running out of fuel. -/
inductive Stop
  | panic (msg : String)
  | fuel
  deriving DecidableEq, Repr

/-- The `switch(tok)` of `parseredirs`; `+` is the token `gettoken` returns for `>>`. -/
def redirOf (tok : Char) (cmd : Cmd) (file : Nat × Nat) : Cmd :=
  match tok with
  | '<' => .redir cmd file O_RDONLY 0
  | '>' => .redir cmd file (O_WRONLY ||| O_CREATE) 1
  | '+' => .redir cmd file (O_WRONLY ||| O_CREATE) 1
  | _ => cmd

def fillArgv (argv : List (Nat × Nat)) : Cmd → Cmd
  | .exec _ => .exec argv
  | .redir cmd file mode fd => .redir (fillArgv argv cmd) file mode fd
  | cmd => cmd

section Parser

variable (buf : Nat → Char) (es : Nat)

def parseredirs : Nat → Cmd → Nat → Except Stop (Cmd × Nat)
  | 0, _, _ => .error .fuel
  | n + 1, cmd, s =>
    let (b, s) := peek buf es s ['<', '>']
    if b then
      let (tok, _, _, s) := gettoken buf es s
      let (t, q, eq, s) := gettoken buf es s
      if t ≠ 'a' then .error (.panic "missing file for redirection")
      else parseredirs n (redirOf tok cmd (q, eq)) s
    else .ok (cmd, s)

/-- The `while(peek(ps, es, "&"))` loop of `parseline`. -/
def parseBacks : Nat → Cmd → Nat → Except Stop (Cmd × Nat)
  | 0, _, _ => .error .fuel
  | n + 1, cmd, s =>
    let (b, s) := peek buf es s ['&']
    if b then
      let (_, _, _, s) := gettoken buf es s
      parseBacks n (.back cmd) s
    else .ok (cmd, s)

/-- The word loop of `parseexec`: `argv` holds the words so far and `ret` the redirections around
the `execcmd`. -/
def parseArgs : Nat → List (Nat × Nat) → Cmd → Nat → Except Stop (Cmd × Nat)
  | 0, _, _, _ => .error .fuel
  | n + 1, argv, ret, s =>
    let (b, s) := peek buf es s ['|', ')', '&', ';']
    if b then .ok (fillArgv argv ret, s)
    else
      let (tok, q, eq, s) := gettoken buf es s
      if tok = '\x00' then .ok (fillArgv argv ret, s)
      else if tok ≠ 'a' then .error (.panic "syntax")
      else if MAXARGS ≤ argv.length + 1 then .error (.panic "too many args")
      else do
        let (ret, s) ← parseredirs buf es n ret s
        parseArgs n (argv ++ [(q, eq)]) ret s

mutual

def parseline : Nat → Nat → Except Stop (Cmd × Nat)
  | 0, _ => .error .fuel
  | n + 1, s => do
    let (cmd, s) ← parsepipe n s
    let (cmd, s) ← parseBacks buf es n cmd s
    let (b, s) := peek buf es s [';']
    if b then
      let (_, _, _, s) := gettoken buf es s
      let (right, s) ← parseline n s
      pure (.list cmd right, s)
    else pure (cmd, s)

def parsepipe : Nat → Nat → Except Stop (Cmd × Nat)
  | 0, _ => .error .fuel
  | n + 1, s => do
    let (cmd, s) ← parseexec n s
    let (b, s) := peek buf es s ['|']
    if b then
      let (_, _, _, s) := gettoken buf es s
      let (right, s) ← parsepipe n s
      pure (.pipe cmd right, s)
    else pure (cmd, s)

def parseblock : Nat → Nat → Except Stop (Cmd × Nat)
  | 0, _ => .error .fuel
  | n + 1, s =>
    let (b, s) := peek buf es s ['(']
    if !b then .error (.panic "parseblock")
    else
      let (_, _, _, s) := gettoken buf es s
      match parseline n s with
      | .error e => .error e
      | .ok (cmd, s) =>
        let (b, s) := peek buf es s [')']
        if !b then .error (.panic "syntax - missing )")
        else
          let (_, _, _, s) := gettoken buf es s
          parseredirs buf es n cmd s

def parseexec : Nat → Nat → Except Stop (Cmd × Nat)
  | 0, _ => .error .fuel
  | n + 1, s =>
    let (b, s) := peek buf es s ['(']
    if b then parseblock n s
    else do
      let (ret, s) ← parseredirs buf es n (.exec []) s
      parseArgs buf es n [] ret s

end

def nulterminate : Cmd → (Nat → Char) → (Nat → Char)
  | .exec argv, m => argv.foldl (fun m w => Function.update m w.2 '\x00') m
  | .redir cmd file _ _, m => Function.update (nulterminate cmd m) file.2 '\x00'
  | .pipe left right, m => nulterminate right (nulterminate left m)
  | .list left right, m => nulterminate right (nulterminate left m)
  | .back cmd, m => nulterminate cmd m

/-- `es` is `s + strlen(s)`; the line starts at `0`. -/
def parsecmd : Except Stop (Cmd × (Nat → Char)) := do
  let (cmd, s) ← parseline buf es (4 * es + 7) 0
  let (_, s) := peek buf es s []
  if s ≠ es then .error (.panic "syntax")
  else pure (cmd, nulterminate cmd buf)

end Parser

/-! ### The grammar

Over the token list of `tokens`, where `gettoken` returns `>>` as `+`. -/

/-- `redirs ::= {('<' | '>' | '>>') word}`, with the redirections in order. -/
inductive Redirs : List Tok → List (Char × (Nat × Nat)) → Prop
  | nil : Redirs [] []
  | cons {t : Char} {q e : Nat} {ts rs} : t ∈ ['<', '>', '+'] → Redirs ts rs →
      Redirs (.sym t :: .word q e :: ts) ((t, (q, e)) :: rs)

/-- Each redirection wraps the command parsed before it. -/
def wrap (rs : List (Char × (Nat × Nat))) (cmd : Cmd) : Cmd :=
  rs.foldl (fun cmd r => redirOf r.1 cmd r.2) cmd

/-- `redirs {word redirs}`: the words left to right, and the redirections around them. -/
inductive Simple : List Tok → List (Nat × Nat) → List (Char × (Nat × Nat)) → Prop
  | redirs {ts rs} : Redirs ts rs → Simple ts [] rs
  | word {ts argv rs us vs} {q e : Nat} : Simple ts argv rs → Redirs us vs →
      Simple (ts ++ .word q e :: us) (argv ++ [(q, e)]) (rs ++ vs)

mutual

/-- `line ::= pipe {'&'} [';' line]` -/
inductive Line : List Tok → Cmd → Prop
  | pipe {ts c} (k : Nat) : Pipe ts c → Line (ts ++ List.replicate k (.sym '&')) (Cmd.back^[k] c)
  | list {ts c us d} (k : Nat) : Pipe ts c → Line us d →
      Line (ts ++ List.replicate k (.sym '&') ++ .sym ';' :: us) (.list (Cmd.back^[k] c) d)

/-- `pipe ::= exec ['|' pipe]` -/
inductive Pipe : List Tok → Cmd → Prop
  | exec {ts c} : Exec ts c → Pipe ts c
  | pipe {ts c us d} : Exec ts c → Pipe us d → Pipe (ts ++ .sym '|' :: us) (.pipe c d)

/-- `exec ::= '(' line ')' redirs | redirs {word redirs}`, with fewer than `MAXARGS` words. -/
inductive Exec : List Tok → Cmd → Prop
  | block {ts c us rs} : Line ts c → Redirs us rs → Exec (.sym '(' :: (ts ++ .sym ')' :: us)) (wrap rs c)
  | simple {ts argv rs} : Simple ts argv rs → argv.length < MAXARGS → Exec ts (wrap rs (.exec argv))

end

@[simp] theorem wrap_nil (cmd : Cmd) : wrap [] cmd = cmd := rfl

theorem wrap_append (rs vs : List (Char × (Nat × Nat))) (cmd : Cmd) :
    wrap (rs ++ vs) cmd = wrap vs (wrap rs cmd) :=
  List.foldl_append

theorem wrap_cons (r : Char × (Nat × Nat)) (rs : List (Char × (Nat × Nat))) (cmd : Cmd) :
    wrap (r :: rs) cmd = wrap rs (redirOf r.1 cmd r.2) := rfl

theorem fillArgv_redirOf (argv : List (Nat × Nat)) (t : Char) (cmd : Cmd) (file : Nat × Nat) :
    fillArgv argv (redirOf t cmd file) = redirOf t (fillArgv argv cmd) file := by
  unfold redirOf
  split <;> rfl

/-- `parseexec` fills the `execcmd` under the redirections `parseredirs` has put around it. -/
theorem fillArgv_wrap (argv : List (Nat × Nat)) :
    ∀ (rs : List (Char × (Nat × Nat))) (cmd : Cmd), fillArgv argv (wrap rs cmd) = wrap rs (fillArgv argv cmd)
  | [], _ => rfl
  | r :: rs, cmd => by
    rw [wrap_cons, fillArgv_wrap argv rs, fillArgv_redirOf, wrap_cons]

/-! ### What each function reads -/

section Sound

variable {buf : Nat → Char} {es : Nat}

theorem parseredirs_sound (h : NulTerm buf es) : ∀ n cmd s, s ≤ es → ∀ {c : Cmd} {s' : Nat},
    parseredirs buf es n cmd s = .ok (c, s') →
    s ≤ s' ∧ s' ≤ es ∧ ∃ ts rs, tokens buf es s = ts ++ tokens buf es s' ∧ Redirs ts rs ∧ c = wrap rs cmd
  | 0, _, _, _, _, _, hp => by cases hp
  | n + 1, cmd, s, hs, c, s', hp => by
    rcases hk : peek buf es s ['<', '>'] with ⟨b, s₁⟩
    simp only [parseredirs, hk] at hp
    cases b with
    | false =>
      -- no redirection: `peek` only passed the blanks
      simp only [Bool.false_eq_true, if_false, Except.ok.injEq, Prod.mk.injEq] at hp
      obtain ⟨rfl, rfl⟩ := hp
      obtain ⟨h₁, h₂, hts⟩ := peek_skip h hs hk
      exact ⟨h₁, h₂, [], [], hts, .nil, rfl⟩
    | true =>
      rcases hg₁ : gettoken buf es s₁ with ⟨tok, q₁, e₁, s₂⟩
      rcases hg₂ : gettoken buf es s₂ with ⟨t, q, e, s₃⟩
      simp only [hg₁, hg₂, if_true] at hp
      by_cases ht : t = 'a'
      · simp only [ht, ne_eq, not_true_eq_false, if_false] at hp
        subst ht
        obtain ⟨htok, hs₂, hs₂e, hts₁⟩ := gettoken_of_peek h hs (by simp [symbols]) hk hg₁
        obtain ⟨hs₃, hs₃e, hts₂⟩ := tokens_of_gettoken h hs₂e hg₂ (by decide)
        obtain ⟨h₁, h₂, ts, rs, hts, hrs, rfl⟩ := parseredirs_sound h n _ s₃ hs₃e hp
        have hmem : tok ∈ ['<', '>', '+'] := by
          have := (peek_fst.1 (congrArg Prod.fst hk)).2
          rw [show skipws buf es s = s₁ from congrArg Prod.snd hk] at this
          simp only [List.mem_cons, List.not_mem_nil, or_false] at this ⊢
          rcases htok with rfl | ⟨-, rfl⟩ <;> tauto
        refine ⟨by omega, h₂, _ :: _ :: ts, (tok, (q, e)) :: rs, ?_, .cons hmem hrs, rfl⟩
        rw [hts₁, hts₂, hts]
        rfl
      · simp only [ht, ne_eq, not_false_eq_true, if_true, reduceCtorEq] at hp

theorem parseBacks_sound (h : NulTerm buf es) : ∀ n cmd s, s ≤ es → ∀ {c : Cmd} {s' : Nat},
    parseBacks buf es n cmd s = .ok (c, s') →
    s ≤ s' ∧ s' ≤ es ∧ ∃ k, tokens buf es s = List.replicate k (.sym '&') ++ tokens buf es s' ∧
      c = Cmd.back^[k] cmd
  | 0, _, _, _, _, _, hp => by cases hp
  | n + 1, cmd, s, hs, c, s', hp => by
    rcases hk : peek buf es s ['&'] with ⟨b, s₁⟩
    simp only [parseBacks, hk] at hp
    cases b with
    | false =>
      simp only [Bool.false_eq_true, if_false, Except.ok.injEq, Prod.mk.injEq] at hp
      obtain ⟨rfl, rfl⟩ := hp
      obtain ⟨h₁, h₂, hts⟩ := peek_skip h hs hk
      exact ⟨h₁, h₂, 0, hts, rfl⟩
    | true =>
      rcases hg : gettoken buf es s₁ with ⟨t, q, e, s₂⟩
      simp only [hg, if_true] at hp
      obtain ⟨-, hs₂, hs₂e, hts₁⟩ := gettoken_of_peek_one h hs (by decide) hk hg
      obtain ⟨h₁, h₂, k, hts, rfl⟩ := parseBacks_sound h n _ s₂ hs₂e hp
      refine ⟨by omega, h₂, k + 1, by rw [hts₁, hts]; rfl, ?_⟩
      rw [Function.iterate_succ_apply]

/-- The word loop of `parseexec` extends the simple command read so far: `ts₀` are its tokens,
`argv` its words and `ret` its redirections around the `execcmd`. -/
theorem parseArgs_sound (h : NulTerm buf es) : ∀ n argv ret s, s ≤ es →
    ∀ {ts₀ rs₀}, Simple ts₀ argv rs₀ → ret = wrap rs₀ (.exec []) → argv.length < MAXARGS →
    ∀ {c : Cmd} {s' : Nat}, parseArgs buf es n argv ret s = .ok (c, s') →
    s ≤ s' ∧ s' ≤ es ∧ ∃ ts, tokens buf es s = ts ++ tokens buf es s' ∧ Exec (ts₀ ++ ts) c
  | 0, _, _, _, _, _, _, _, _, _, _, _, hp => by cases hp
  | n + 1, argv, ret, s, hs, ts₀, rs₀, hsim, hret, hlen, c, s', hp => by
    -- where the loop stops, `fillArgv` puts the words into the `execcmd`
    have hdone : fillArgv argv ret = wrap rs₀ (.exec argv) := by
      rw [hret, fillArgv_wrap]
      rfl
    rcases hk : peek buf es s ['|', ')', '&', ';'] with ⟨b, s₁⟩
    obtain ⟨h₁, h₁e, hts₁⟩ := peek_skip h hs hk
    simp only [parseArgs, hk] at hp
    cases b with
    | true =>
      simp only [if_true, Except.ok.injEq, Prod.mk.injEq] at hp
      obtain ⟨rfl, rfl⟩ := hp
      exact ⟨h₁, h₁e, [], by rw [hts₁]; rfl, by rw [List.append_nil, hdone]; exact .simple hsim hlen⟩
    | false =>
      rcases hg : gettoken buf es s₁ with ⟨tok, q, e, s₂⟩
      simp only [hg, Bool.false_eq_true, if_false] at hp
      by_cases h0 : tok = '\x00'
      · -- the NUL ends the command
        subst h0
        simp only [if_true, Except.ok.injEq, Prod.mk.injEq] at hp
        obtain ⟨rfl, rfl⟩ := hp
        obtain ⟨rfl, hts₂⟩ := tokens_of_nul h h₁e hg
        exact ⟨by omega, Nat.le_refl _, [], by rw [hts₁, hts₂]; rfl,
          by rw [List.append_nil, hdone]; exact .simple hsim hlen⟩
      by_cases ha : tok = 'a'
      swap
      · simp only [h0, ha, if_false, ne_eq, not_false_eq_true, if_true, reduceCtorEq] at hp
      subst ha
      by_cases hmax : MAXARGS ≤ argv.length + 1
      · simp only [h0, if_false, ne_eq, not_true_eq_false, hmax, if_true, reduceCtorEq] at hp
      simp only [h0, if_false, ne_eq, not_true_eq_false, hmax] at hp
      obtain ⟨hs₂, hs₂e, hts₂⟩ := tokens_of_gettoken h h₁e hg h0
      rcases hr : parseredirs buf es n ret s₂ with err | ⟨ret', s₃⟩
      · simp only [hr, Except.error_bind, reduceCtorEq] at hp
      simp only [hr, Except.ok_bind] at hp
      obtain ⟨h₃, h₃e, us, vs, hts₃, hvs, rfl⟩ := parseredirs_sound h n ret s₂ hs₂e hr
      have hsim' : Simple (ts₀ ++ .word q e :: us) (argv ++ [(q, e)]) (rs₀ ++ vs) := .word hsim hvs
      obtain ⟨h₄, h₄e, ts, hts, hex⟩ := parseArgs_sound h n _ _ s₃ h₃e hsim'
        (by rw [hret, wrap_append]) (by simp only [List.length_append, List.length_singleton]; omega) hp
      refine ⟨by omega, h₄e, .word q e :: us ++ ts, ?_, by simpa using hex⟩
      rw [hts₁, hts₂, hts₃, hts]
      simp [tokOf]

/-- A parse from `s` that returned `r` read the tokens `ts` before `r.2`, and `G` derives the
command `r.1` from them. -/
def Reads (buf : Nat → Char) (es : Nat) (G : List Tok → Cmd → Prop) (s : Nat) (r : Cmd × Nat) : Prop :=
  s ≤ r.2 ∧ r.2 ≤ es ∧ ∃ ts, tokens buf es s = ts ++ tokens buf es r.2 ∧ G ts r.1

/-- The functions of the recursion, each sound with fuel `n`. -/
structure Sound (buf : Nat → Char) (es n : Nat) : Prop where
  line : ∀ s r, s ≤ es → parseline buf es n s = .ok r → Reads buf es Line s r
  pipe : ∀ s r, s ≤ es → parsepipe buf es n s = .ok r → Reads buf es Pipe s r
  exec : ∀ s r, s ≤ es → parseexec buf es n s = .ok r → Reads buf es Exec s r
  block : ∀ s r, s ≤ es → parseblock buf es n s = .ok r → Reads buf es Exec s r

theorem Sound.zero : Sound buf es 0 where
  line _ _ _ hp := by simp only [parseline, reduceCtorEq] at hp
  pipe _ _ _ hp := by simp only [parsepipe, reduceCtorEq] at hp
  exec _ _ _ hp := by simp only [parseexec, reduceCtorEq] at hp
  block _ _ _ hp := by simp only [parseblock, reduceCtorEq] at hp

theorem parseline_sound_succ (h : NulTerm buf es) {n : Nat} (ih : Sound buf es n) {s : Nat}
    {r : Cmd × Nat} (hs : s ≤ es) (hp : parseline buf es (n + 1) s = .ok r) : Reads buf es Line s r := by
  rcases hp₁ : parsepipe buf es n s with err | ⟨c₁, s₁⟩
  · simp only [parseline, hp₁, Except.error_bind, reduceCtorEq] at hp
  obtain ⟨hs₁, hs₁e, ts, hts, hP⟩ := ih.pipe s _ hs hp₁
  rcases hp₂ : parseBacks buf es n c₁ s₁ with err | ⟨c₂, s₂⟩
  · simp only [parseline, hp₁, hp₂, Except.ok_bind, Except.error_bind, reduceCtorEq] at hp
  obtain ⟨hs₂, hs₂e, k, hts₂, rfl⟩ := parseBacks_sound h n c₁ s₁ hs₁e hp₂
  rcases hk : peek buf es s₂ [';'] with ⟨b, s₃⟩
  cases b with
  | false =>
    simp only [parseline, hp₁, hp₂, hk, Except.ok_bind, Bool.false_eq_true, if_false,
      Except.pure_eq_ok, Except.ok.injEq] at hp
    subst hp
    obtain ⟨h₃, h₃e, hts₃⟩ := peek_skip h hs₂e hk
    exact ⟨by omega, h₃e, ts ++ List.replicate k (.sym '&'),
      by rw [hts, hts₂, hts₃, List.append_assoc], .pipe k hP⟩
  | true =>
    -- `;` and the rest of the line
    rcases hg : gettoken buf es s₃ with ⟨t, q, e, s₄⟩
    obtain ⟨-, h₄, h₄e, hts₄⟩ := gettoken_of_peek_one h hs₂e (by decide) hk hg
    rcases hp₃ : parseline buf es n s₄ with err | ⟨d, s₅⟩
    · simp only [parseline, hp₁, hp₂, hk, hg, hp₃, Except.ok_bind, Except.error_bind, if_true,
        reduceCtorEq] at hp
    simp only [parseline, hp₁, hp₂, hk, hg, hp₃, Except.ok_bind, if_true, Except.pure_eq_ok,
      Except.ok.injEq] at hp
    subst hp
    obtain ⟨h₅, h₅e, us, hus, hL⟩ := ih.line s₄ _ h₄e hp₃
    exact ⟨by omega, h₅e, ts ++ List.replicate k (.sym '&') ++ .sym ';' :: us,
      by rw [hts, hts₂, hts₄, hus]; simp, .list k hP hL⟩

theorem parsepipe_sound_succ (h : NulTerm buf es) {n : Nat} (ih : Sound buf es n) {s : Nat}
    {r : Cmd × Nat} (hs : s ≤ es) (hp : parsepipe buf es (n + 1) s = .ok r) : Reads buf es Pipe s r := by
  rcases hp₁ : parseexec buf es n s with err | ⟨c₁, s₁⟩
  · simp only [parsepipe, hp₁, Except.error_bind, reduceCtorEq] at hp
  obtain ⟨hs₁, hs₁e, ts, hts, hE⟩ := ih.exec s _ hs hp₁
  rcases hk : peek buf es s₁ ['|'] with ⟨b, s₂⟩
  cases b with
  | false =>
    simp only [parsepipe, hp₁, hk, Except.ok_bind, Bool.false_eq_true, if_false,
      Except.pure_eq_ok, Except.ok.injEq] at hp
    subst hp
    obtain ⟨h₂, h₂e, hts₂⟩ := peek_skip h hs₁e hk
    exact ⟨by omega, h₂e, ts, by rw [hts, hts₂], .exec hE⟩
  | true =>
    rcases hg : gettoken buf es s₂ with ⟨t, q, e, s₃⟩
    obtain ⟨-, h₃, h₃e, hts₃⟩ := gettoken_of_peek_one h hs₁e (by decide) hk hg
    rcases hp₂ : parsepipe buf es n s₃ with err | ⟨d, s₄⟩
    · simp only [parsepipe, hp₁, hk, hg, hp₂, Except.ok_bind, Except.error_bind, if_true,
        reduceCtorEq] at hp
    simp only [parsepipe, hp₁, hk, hg, hp₂, Except.ok_bind, if_true, Except.pure_eq_ok,
      Except.ok.injEq] at hp
    subst hp
    obtain ⟨h₄, h₄e, us, hus, hP⟩ := ih.pipe s₃ _ h₃e hp₂
    exact ⟨by omega, h₄e, ts ++ .sym '|' :: us, by rw [hts, hts₃, hus]; simp, .pipe hE hP⟩

theorem parseblock_sound_succ (h : NulTerm buf es) {n : Nat} (ih : Sound buf es n) {s : Nat}
    {r : Cmd × Nat} (hs : s ≤ es) (hp : parseblock buf es (n + 1) s = .ok r) : Reads buf es Exec s r := by
  rcases hk : peek buf es s ['('] with ⟨b, s₁⟩
  cases b with
  | false => simp only [parseblock, hk, Bool.not_false, if_true, reduceCtorEq] at hp
  | true =>
    rcases hg : gettoken buf es s₁ with ⟨t, q, e, s₂⟩
    obtain ⟨-, h₂, h₂e, hts₂⟩ := gettoken_of_peek_one h hs (by decide) hk hg
    rcases hp₁ : parseline buf es n s₂ with err | ⟨c, s₃⟩
    · simp only [parseblock, hk, hg, hp₁, Bool.not_true, Bool.false_eq_true, if_false,
        reduceCtorEq] at hp
    obtain ⟨h₃, h₃e, ts, hts, hL⟩ := ih.line s₂ _ h₂e hp₁
    rcases hk' : peek buf es s₃ [')'] with ⟨b', s₄⟩
    cases b' with
    | false =>
      simp only [parseblock, hk, hg, hp₁, hk', Bool.not_true, Bool.not_false, Bool.false_eq_true,
        if_false, if_true, reduceCtorEq] at hp
    | true =>
      -- the `)` and the redirections of the block
      rcases hg' : gettoken buf es s₄ with ⟨t', q', e', s₅⟩
      obtain ⟨-, h₅, h₅e, hts₅⟩ := gettoken_of_peek_one h h₃e (by decide) hk' hg'
      simp only [parseblock, hk, hg, hp₁, hk', hg', Bool.not_true, Bool.false_eq_true, if_false] at hp
      obtain ⟨h₆, h₆e, us, rs, hus, hrs, hc⟩ := parseredirs_sound h n c s₅ h₅e hp
      refine ⟨by omega, h₆e, .sym '(' :: (ts ++ .sym ')' :: us), ?_, ?_⟩
      · rw [hts₂, hts, hts₅, hus]
        simp
      · rw [hc]
        exact .block hL hrs

theorem parseexec_sound_succ (h : NulTerm buf es) {n : Nat} (ih : Sound buf es n) {s : Nat}
    {r : Cmd × Nat} (hs : s ≤ es) (hp : parseexec buf es (n + 1) s = .ok r) : Reads buf es Exec s r := by
  rcases hk : peek buf es s ['('] with ⟨b, s₁⟩
  obtain ⟨h₁, h₁e, hts₁⟩ := peek_skip h hs hk
  cases b with
  | true =>
    simp only [parseexec, hk, if_true] at hp
    obtain ⟨h₂, h₂e, ts, hts, hE⟩ := ih.block s₁ r h₁e hp
    exact ⟨by omega, h₂e, ts, by rw [hts₁, hts], hE⟩
  | false =>
    rcases hp₁ : parseredirs buf es n (.exec []) s₁ with err | ⟨ret, s₂⟩
    · simp only [parseexec, hk, hp₁, Bool.false_eq_true, if_false, Except.error_bind,
        reduceCtorEq] at hp
    simp only [parseexec, hk, hp₁, Bool.false_eq_true, if_false, Except.ok_bind] at hp
    obtain ⟨h₂, h₂e, us, rs, hus, hrs, rfl⟩ := parseredirs_sound h n _ s₁ h₁e hp₁
    obtain ⟨c, s'⟩ := r
    obtain ⟨h₃, h₃e, ts, hts, hE⟩ := parseArgs_sound h n [] _ s₂ h₂e (.redirs hrs) rfl
      (by decide) hp
    exact ⟨by omega, h₃e, us ++ ts, by rw [hts₁, hus, hts, List.append_assoc], hE⟩

/-- Every function of the recursion, with any fuel, returns a derivation of what it read. -/
theorem sound (h : NulTerm buf es) : ∀ n, Sound buf es n
  | 0 => Sound.zero
  | n + 1 =>
    have ih := sound h n
    ⟨fun _ _ hs hp => parseline_sound_succ h ih hs hp, fun _ _ hs hp => parsepipe_sound_succ h ih hs hp,
      fun _ _ hs hp => parseexec_sound_succ h ih hs hp, fun _ _ hs hp => parseblock_sound_succ h ih hs hp⟩

end Sound

/-! ### Enough fuel

Each loop iteration and each call that recurses consumes a token, so fuel linear in the bytes
left is enough: `es - s + 1` for the redirection and `&` loops, `es - s + 2` for the word loop, and
`4 * (es - s)` and a few more for the four functions of the recursion, whose calls at the same
position go `parseline`, `parsepipe`, `parseexec`, `parseblock`. -/

section Fuel

variable {buf : Nat → Char} {es : Nat}

theorem bind_ne_fuel {α β : Type} {x : Except Stop α} {f : α → Except Stop β} (hx : x ≠ .error .fuel)
    (hf : ∀ a, x = .ok a → f a ≠ .error .fuel) : (x >>= f) ≠ .error .fuel := by
  cases x with
  | error e =>
    rw [Except.error_bind]
    rintro ⟨⟩
    exact hx rfl
  | ok a => exact hf a rfl

theorem parseredirs_fuel (h : NulTerm buf es) : ∀ n cmd s, s ≤ es → es - s + 1 ≤ n →
    parseredirs buf es n cmd s ≠ .error .fuel
  | 0, _, _, _, hn => absurd hn (by omega)
  | n + 1, cmd, s, hs, hn => by
    rcases hk : peek buf es s ['<', '>'] with ⟨b, s₁⟩
    cases b with
    | false => simp [parseredirs, hk]
    | true =>
      rcases hg₁ : gettoken buf es s₁ with ⟨tok, q₁, e₁, s₂⟩
      rcases hg₂ : gettoken buf es s₂ with ⟨t, q, e, s₃⟩
      obtain ⟨-, hs₂, hs₂e, -⟩ := gettoken_of_peek h hs (by simp [symbols]) hk hg₁
      obtain ⟨hq, hqe, hes₃, hs₃e, -, -⟩ := gettoken_spec h hs₂e hg₂
      by_cases ht : t = 'a'
      · simp only [parseredirs, hk, hg₁, hg₂, ht, if_true, ne_eq, not_true_eq_false, if_false]
        exact parseredirs_fuel h n _ s₃ hs₃e (by omega)
      · simp [parseredirs, hk, hg₁, hg₂, ht]

theorem parseBacks_fuel (h : NulTerm buf es) : ∀ n cmd s, s ≤ es → es - s + 1 ≤ n →
    parseBacks buf es n cmd s ≠ .error .fuel
  | 0, _, _, _, hn => absurd hn (by omega)
  | n + 1, cmd, s, hs, hn => by
    rcases hk : peek buf es s ['&'] with ⟨b, s₁⟩
    cases b with
    | false => simp [parseBacks, hk]
    | true =>
      rcases hg : gettoken buf es s₁ with ⟨t, q, e, s₂⟩
      obtain ⟨-, hs₂, hs₂e, -⟩ := gettoken_of_peek_one h hs (by decide) hk hg
      simp only [parseBacks, hk, hg, if_true]
      exact parseBacks_fuel h n _ s₂ hs₂e (by omega)

theorem parseArgs_fuel (h : NulTerm buf es) : ∀ n argv ret s, s ≤ es → es - s + 2 ≤ n →
    parseArgs buf es n argv ret s ≠ .error .fuel
  | 0, _, _, _, _, hn => absurd hn (by omega)
  | n + 1, argv, ret, s, hs, hn => by
    rcases hk : peek buf es s ['|', ')', '&', ';'] with ⟨b, s₁⟩
    obtain ⟨h₁, h₁e, -⟩ := peek_skip h hs hk
    cases b with
    | true => simp [parseArgs, hk]
    | false =>
      rcases hg : gettoken buf es s₁ with ⟨tok, q, e, s₂⟩
      by_cases h0 : tok = '\x00'
      · simp [parseArgs, hk, hg, h0]
      by_cases ha : tok = 'a'
      swap
      · simp [parseArgs, hk, hg, h0, ha]
      by_cases hmax : MAXARGS ≤ argv.length + 1
      · simp [parseArgs, hk, hg, ha, hmax]
      obtain ⟨hs₂, hs₂e, -⟩ := tokens_of_gettoken h h₁e hg h0
      simp only [parseArgs, hk, hg, ha, hmax, Bool.false_eq_true, if_false, ne_eq,
        not_true_eq_false]
      refine bind_ne_fuel (parseredirs_fuel h n ret s₂ hs₂e (by omega)) fun ⟨ret', s₃⟩ hr => ?_
      obtain ⟨hs₃, hs₃e, -⟩ := parseredirs_sound h n ret s₂ hs₂e hr
      exact parseArgs_fuel h n _ _ s₃ hs₃e (by omega)

/-- The functions of the recursion, each with enough fuel for the bytes left. -/
structure Fuel (buf : Nat → Char) (es n : Nat) : Prop where
  line : ∀ s, s ≤ es → 4 * (es - s) + 7 ≤ n → parseline buf es n s ≠ .error .fuel
  pipe : ∀ s, s ≤ es → 4 * (es - s) + 6 ≤ n → parsepipe buf es n s ≠ .error .fuel
  exec : ∀ s, s ≤ es → 4 * (es - s) + 5 ≤ n → parseexec buf es n s ≠ .error .fuel
  block : ∀ s, s ≤ es → 4 * (es - s) + 4 ≤ n → parseblock buf es n s ≠ .error .fuel

theorem Fuel.zero : Fuel buf es 0 where
  line _ _ hn := absurd hn (by omega)
  pipe _ _ hn := absurd hn (by omega)
  exec _ _ hn := absurd hn (by omega)
  block _ _ hn := absurd hn (by omega)

theorem parseline_fuel_succ (h : NulTerm buf es) {n : Nat} (ih : Fuel buf es n) {s : Nat} (hs : s ≤ es)
    (hn : 4 * (es - s) + 7 ≤ n + 1) : parseline buf es (n + 1) s ≠ .error .fuel := by
  simp only [parseline]
  refine bind_ne_fuel (ih.pipe s hs (by omega)) fun ⟨c₁, s₁⟩ hp₁ => ?_
  obtain ⟨hs₁, hs₁e, -⟩ := (sound h n).pipe s _ hs hp₁
  refine bind_ne_fuel (parseBacks_fuel h n c₁ s₁ hs₁e (by omega)) fun ⟨c₂, s₂⟩ hp₂ => ?_
  obtain ⟨hs₂, hs₂e, -⟩ := parseBacks_sound h n c₁ s₁ hs₁e hp₂
  rcases hk : peek buf es s₂ [';'] with ⟨b, s₃⟩
  cases b with
  | false => simp
  | true =>
    rcases hg : gettoken buf es s₃ with ⟨t, q, e, s₄⟩
    obtain ⟨-, h₄, h₄e, -⟩ := gettoken_of_peek_one h hs₂e (by decide) hk hg
    simp only [if_true]
    exact bind_ne_fuel (ih.line s₄ h₄e (by omega)) fun _ _ => by simp

theorem parsepipe_fuel_succ (h : NulTerm buf es) {n : Nat} (ih : Fuel buf es n) {s : Nat} (hs : s ≤ es)
    (hn : 4 * (es - s) + 6 ≤ n + 1) : parsepipe buf es (n + 1) s ≠ .error .fuel := by
  simp only [parsepipe]
  refine bind_ne_fuel (ih.exec s hs (by omega)) fun ⟨c₁, s₁⟩ hp₁ => ?_
  obtain ⟨hs₁, hs₁e, -⟩ := (sound h n).exec s _ hs hp₁
  rcases hk : peek buf es s₁ ['|'] with ⟨b, s₂⟩
  cases b with
  | false => simp
  | true =>
    rcases hg : gettoken buf es s₂ with ⟨t, q, e, s₃⟩
    obtain ⟨-, h₃, h₃e, -⟩ := gettoken_of_peek_one h hs₁e (by decide) hk hg
    simp only [if_true]
    exact bind_ne_fuel (ih.pipe s₃ h₃e (by omega)) fun _ _ => by simp

theorem parseblock_fuel_succ (h : NulTerm buf es) {n : Nat} (ih : Fuel buf es n) {s : Nat} (hs : s ≤ es)
    (hn : 4 * (es - s) + 4 ≤ n + 1) : parseblock buf es (n + 1) s ≠ .error .fuel := by
  rcases hk : peek buf es s ['('] with ⟨b, s₁⟩
  cases b with
  | false => simp [parseblock, hk]
  | true =>
    rcases hg : gettoken buf es s₁ with ⟨t, q, e, s₂⟩
    obtain ⟨-, h₂, h₂e, -⟩ := gettoken_of_peek_one h hs (by decide) hk hg
    have hl := ih.line s₂ h₂e (by omega)
    rcases hp₁ : parseline buf es n s₂ with err | ⟨c, s₃⟩
    · rw [hp₁] at hl
      simpa [parseblock, hk, hg, hp₁] using hl
    obtain ⟨h₃, h₃e, -⟩ := (sound h n).line s₂ _ h₂e hp₁
    rcases hk' : peek buf es s₃ [')'] with ⟨b', s₄⟩
    cases b' with
    | false => simp [parseblock, hk, hg, hp₁, hk']
    | true =>
      rcases hg' : gettoken buf es s₄ with ⟨t', q', e', s₅⟩
      obtain ⟨-, h₅, h₅e, -⟩ := gettoken_of_peek_one h h₃e (by decide) hk' hg'
      simp only [parseblock, hk, hg, hp₁, hk', hg', Bool.not_true, Bool.false_eq_true, if_false]
      exact parseredirs_fuel h n c s₅ h₅e (by omega)

theorem parseexec_fuel_succ (h : NulTerm buf es) {n : Nat} (ih : Fuel buf es n) {s : Nat} (hs : s ≤ es)
    (hn : 4 * (es - s) + 5 ≤ n + 1) : parseexec buf es (n + 1) s ≠ .error .fuel := by
  rcases hk : peek buf es s ['('] with ⟨b, s₁⟩
  obtain ⟨h₁, h₁e, -⟩ := peek_skip h hs hk
  cases b with
  | true =>
    simp only [parseexec, hk, if_true]
    exact ih.block s₁ h₁e (by omega)
  | false =>
    simp only [parseexec, hk, Bool.false_eq_true, if_false]
    refine bind_ne_fuel (parseredirs_fuel h n _ s₁ h₁e (by omega)) fun ⟨ret, s₂⟩ hr => ?_
    obtain ⟨h₂, h₂e, -⟩ := parseredirs_sound h n _ s₁ h₁e hr
    exact parseArgs_fuel h n [] ret s₂ h₂e (by omega)

theorem fuel (h : NulTerm buf es) : ∀ n, Fuel buf es n
  | 0 => Fuel.zero
  | n + 1 =>
    have ih := fuel h n
    ⟨fun _ hs hn => parseline_fuel_succ h ih hs hn, fun _ hs hn => parsepipe_fuel_succ h ih hs hn,
      fun _ hs hn => parseexec_fuel_succ h ih hs hn, fun _ hs hn => parseblock_fuel_succ h ih hs hn⟩

end Fuel

/-! ### No byte past the terminator

The parser reads the memory only through `peek` and `gettoken`, at positions within the line, so a
memory that agrees with `buf` on `[0, es]` gives the same parse. -/

section Congr

variable {buf buf' : Nat → Char} {es : Nat}

theorem bind_congr_ok {α β : Type} {x : Except Stop α} {f g : α → Except Stop β}
    (hfg : ∀ a, x = .ok a → f a = g a) : (x >>= f) = (x >>= g) := by
  cases x with
  | error e => rfl
  | ok a => exact hfg a rfl

theorem parseredirs_congr (h : NulTerm buf es) (hb : ∀ i ≤ es, buf' i = buf i) :
    ∀ n cmd s, s ≤ es → parseredirs buf' es n cmd s = parseredirs buf es n cmd s
  | 0, _, _, _ => rfl
  | n + 1, cmd, s, hs => by
    simp only [parseredirs, peek_congr hb hs]
    rcases hk : peek buf es s ['<', '>'] with ⟨b, s₁⟩
    obtain ⟨-, hs₁e, -⟩ := peek_skip h hs hk
    cases b with
    | false => simp only [Bool.false_eq_true, if_false]
    | true =>
      simp only [if_true, gettoken_congr h hb hs₁e]
      rcases hg₁ : gettoken buf es s₁ with ⟨tok, q₁, e₁, s₂⟩
      obtain ⟨-, -, -, hs₂e, -, -⟩ := gettoken_spec h hs₁e hg₁
      simp only [gettoken_congr h hb hs₂e]
      rcases hg₂ : gettoken buf es s₂ with ⟨t, q, e, s₃⟩
      obtain ⟨-, -, -, hs₃e, -, -⟩ := gettoken_spec h hs₂e hg₂
      simp only [parseredirs_congr h hb n _ s₃ hs₃e]

theorem parseBacks_congr (h : NulTerm buf es) (hb : ∀ i ≤ es, buf' i = buf i) :
    ∀ n cmd s, s ≤ es → parseBacks buf' es n cmd s = parseBacks buf es n cmd s
  | 0, _, _, _ => rfl
  | n + 1, cmd, s, hs => by
    simp only [parseBacks, peek_congr hb hs]
    rcases hk : peek buf es s ['&'] with ⟨b, s₁⟩
    obtain ⟨-, hs₁e, -⟩ := peek_skip h hs hk
    cases b with
    | false => simp only [Bool.false_eq_true, if_false]
    | true =>
      simp only [if_true, gettoken_congr h hb hs₁e]
      rcases hg : gettoken buf es s₁ with ⟨t, q, e, s₂⟩
      obtain ⟨-, -, -, hs₂e, -, -⟩ := gettoken_spec h hs₁e hg
      simp only [parseBacks_congr h hb n _ s₂ hs₂e]

theorem parseArgs_congr (h : NulTerm buf es) (hb : ∀ i ≤ es, buf' i = buf i) :
    ∀ n argv ret s, s ≤ es → parseArgs buf' es n argv ret s = parseArgs buf es n argv ret s
  | 0, _, _, _, _ => rfl
  | n + 1, argv, ret, s, hs => by
    simp only [parseArgs, peek_congr hb hs]
    rcases hk : peek buf es s ['|', ')', '&', ';'] with ⟨b, s₁⟩
    obtain ⟨-, hs₁e, -⟩ := peek_skip h hs hk
    cases b with
    | true => simp only [if_true]
    | false =>
      simp only [Bool.false_eq_true, if_false, gettoken_congr h hb hs₁e]
      rcases hg : gettoken buf es s₁ with ⟨tok, q, e, s₂⟩
      obtain ⟨-, -, -, hs₂e, -, -⟩ := gettoken_spec h hs₁e hg
      simp only [parseredirs_congr h hb n ret s₂ hs₂e]
      split_ifs
      any_goals rfl
      refine bind_congr_ok fun ⟨ret', s₃⟩ hr => ?_
      obtain ⟨-, hs₃e, -⟩ := parseredirs_sound h n ret s₂ hs₂e hr
      exact parseArgs_congr h hb n _ _ s₃ hs₃e

/-- The functions of the recursion, each giving the same parse on `buf'` as on `buf` with fuel `n`. -/
structure Agree (buf buf' : Nat → Char) (es n : Nat) : Prop where
  line : ∀ s, s ≤ es → parseline buf' es n s = parseline buf es n s
  pipe : ∀ s, s ≤ es → parsepipe buf' es n s = parsepipe buf es n s
  exec : ∀ s, s ≤ es → parseexec buf' es n s = parseexec buf es n s
  block : ∀ s, s ≤ es → parseblock buf' es n s = parseblock buf es n s

theorem Agree.zero : Agree buf buf' es 0 where
  line _ _ := by simp only [parseline]
  pipe _ _ := by simp only [parsepipe]
  exec _ _ := by simp only [parseexec]
  block _ _ := by simp only [parseblock]

theorem parseline_congr_succ (h : NulTerm buf es) (hb : ∀ i ≤ es, buf' i = buf i) {n : Nat}
    (ih : Agree buf buf' es n) {s : Nat} (hs : s ≤ es) :
    parseline buf' es (n + 1) s = parseline buf es (n + 1) s := by
  simp only [parseline, ih.pipe s hs]
  refine bind_congr_ok fun ⟨c₁, s₁⟩ hp₁ => ?_
  obtain ⟨-, hs₁e, -⟩ := (sound h n).pipe s _ hs hp₁
  simp only [parseBacks_congr h hb n c₁ s₁ hs₁e]
  refine bind_congr_ok fun ⟨c₂, s₂⟩ hp₂ => ?_
  obtain ⟨-, hs₂e, -⟩ := parseBacks_sound h n c₁ s₁ hs₁e hp₂
  simp only [peek_congr hb hs₂e]
  rcases hk : peek buf es s₂ [';'] with ⟨b, s₃⟩
  obtain ⟨-, hs₃e, -⟩ := peek_skip h hs₂e hk
  cases b with
  | false => simp only [Bool.false_eq_true, if_false]
  | true =>
    simp only [if_true, gettoken_congr h hb hs₃e]
    rcases hg : gettoken buf es s₃ with ⟨t, q, e, s₄⟩
    obtain ⟨-, -, -, hs₄e, -, -⟩ := gettoken_spec h hs₃e hg
    simp only [ih.line s₄ hs₄e]

theorem parsepipe_congr_succ (h : NulTerm buf es) (hb : ∀ i ≤ es, buf' i = buf i) {n : Nat}
    (ih : Agree buf buf' es n) {s : Nat} (hs : s ≤ es) :
    parsepipe buf' es (n + 1) s = parsepipe buf es (n + 1) s := by
  simp only [parsepipe, ih.exec s hs]
  refine bind_congr_ok fun ⟨c₁, s₁⟩ hp₁ => ?_
  obtain ⟨-, hs₁e, -⟩ := (sound h n).exec s _ hs hp₁
  simp only [peek_congr hb hs₁e]
  rcases hk : peek buf es s₁ ['|'] with ⟨b, s₂⟩
  obtain ⟨-, hs₂e, -⟩ := peek_skip h hs₁e hk
  cases b with
  | false => simp only [Bool.false_eq_true, if_false]
  | true =>
    simp only [if_true, gettoken_congr h hb hs₂e]
    rcases hg : gettoken buf es s₂ with ⟨t, q, e, s₃⟩
    obtain ⟨-, -, -, hs₃e, -, -⟩ := gettoken_spec h hs₂e hg
    simp only [ih.pipe s₃ hs₃e]

theorem parseblock_congr_succ (h : NulTerm buf es) (hb : ∀ i ≤ es, buf' i = buf i) {n : Nat}
    (ih : Agree buf buf' es n) {s : Nat} (hs : s ≤ es) :
    parseblock buf' es (n + 1) s = parseblock buf es (n + 1) s := by
  simp only [parseblock, peek_congr hb hs]
  rcases hk : peek buf es s ['('] with ⟨b, s₁⟩
  obtain ⟨-, hs₁e, -⟩ := peek_skip h hs hk
  cases b with
  | false => simp only [Bool.not_false, if_true]
  | true =>
    simp only [Bool.not_true, Bool.false_eq_true, if_false, gettoken_congr h hb hs₁e]
    rcases hg : gettoken buf es s₁ with ⟨t, q, e, s₂⟩
    obtain ⟨-, -, -, hs₂e, -, -⟩ := gettoken_spec h hs₁e hg
    simp only [ih.line s₂ hs₂e]
    rcases hp : parseline buf es n s₂ with err | ⟨c, s₃⟩
    · rfl
    obtain ⟨-, hs₃e, -⟩ := (sound h n).line s₂ _ hs₂e hp
    simp only [peek_congr hb hs₃e]
    rcases hk' : peek buf es s₃ [')'] with ⟨b', s₄⟩
    obtain ⟨-, hs₄e, -⟩ := peek_skip h hs₃e hk'
    cases b' with
    | false => simp only [Bool.not_false, if_true]
    | true =>
      simp only [Bool.not_true, Bool.false_eq_true, if_false, gettoken_congr h hb hs₄e]
      rcases hg' : gettoken buf es s₄ with ⟨t', q', e', s₅⟩
      obtain ⟨-, -, -, hs₅e, -, -⟩ := gettoken_spec h hs₄e hg'
      exact parseredirs_congr h hb n c s₅ hs₅e

theorem parseexec_congr_succ (h : NulTerm buf es) (hb : ∀ i ≤ es, buf' i = buf i) {n : Nat}
    (ih : Agree buf buf' es n) {s : Nat} (hs : s ≤ es) :
    parseexec buf' es (n + 1) s = parseexec buf es (n + 1) s := by
  simp only [parseexec, peek_congr hb hs]
  rcases hk : peek buf es s ['('] with ⟨b, s₁⟩
  obtain ⟨-, hs₁e, -⟩ := peek_skip h hs hk
  cases b with
  | true => exact ih.block s₁ hs₁e
  | false =>
    simp only [Bool.false_eq_true, if_false, parseredirs_congr h hb n _ s₁ hs₁e]
    refine bind_congr_ok fun ⟨ret, s₂⟩ hr => ?_
    obtain ⟨-, hs₂e, -⟩ := parseredirs_sound h n _ s₁ hs₁e hr
    exact parseArgs_congr h hb n [] ret s₂ hs₂e

theorem agree (h : NulTerm buf es) (hb : ∀ i ≤ es, buf' i = buf i) : ∀ n, Agree buf buf' es n
  | 0 => Agree.zero
  | n + 1 =>
    have ih := agree h hb n
    ⟨fun _ hs => parseline_congr_succ h hb ih hs, fun _ hs => parsepipe_congr_succ h hb ih hs,
      fun _ hs => parseexec_congr_succ h hb ih hs, fun _ hs => parseblock_congr_succ h hb ih hs⟩

end Congr

/-! ### Every derivation is what the parser builds

Each step of the parser is decided by `peek` at the next token, so on the tokens of a derivation it
builds the derivation's command, provided the token after them is one the grammar lets follow:
`Follows rest toks` says the rest of the line is empty or starts with a symbol of `toks`. The word
loop reads a simple command from the left, as `Args` does. -/

/-- `{word redirs}` read from the left: each word, then the redirections after it. -/
inductive Args : List Tok → List (Nat × Nat) → List (Char × (Nat × Nat)) → Prop
  | nil : Args [] [] []
  | cons {q e : Nat} {us vs ts argv rs} : Redirs us vs → Args ts argv rs →
      Args (.word q e :: (us ++ ts)) ((q, e) :: argv) (vs ++ rs)

theorem Args.snoc {ts argv rs} (hA : Args ts argv rs) {us vs} (hR : Redirs us vs) (q e : Nat) :
    Args (ts ++ .word q e :: us) (argv ++ [(q, e)]) (rs ++ vs) := by
  induction hA with
  | nil => simpa using Args.cons (q := q) (e := e) hR .nil
  | cons hR' _ ih => simpa using Args.cons hR' ih

theorem Simple.split {ts argv rs} (hS : Simple ts argv rs) :
    ∃ us vs ts₁ rs₁, ts = us ++ ts₁ ∧ rs = vs ++ rs₁ ∧ Redirs us vs ∧ Args ts₁ argv rs₁ := by
  induction hS with
  | redirs hR => exact ⟨_, _, [], [], by simp, by simp, hR, .nil⟩
  | word _ hR ih =>
    obtain ⟨us, vs, ts₁, rs₁, rfl, rfl, hR₀, hA⟩ := ih
    exact ⟨us, vs, _, _, by simp, by simp, hR₀, hA.snoc hR _ _⟩

/-- The rest of the line is empty or starts with one of the symbols `toks`. -/
def Follows (rest : List Tok) (toks : List Char) : Prop :=
  rest = [] ∨ ∃ c ∈ toks, ∃ rest', rest = .sym c :: rest'

theorem Follows.mono {rest : List Tok} {toks toks' : List Char} (h : Follows rest toks) (hsub : toks ⊆ toks') :
    Follows rest toks' := by
  rcases h with rfl | ⟨c, hc, rest', rfl⟩
  · exact .inl rfl
  · exact .inr ⟨c, hsub hc, rest', rfl⟩

theorem Follows.sym {c : Char} {toks : List Char} (hc : c ∈ toks) (rest : List Tok) :
    Follows (.sym c :: rest) toks :=
  .inr ⟨c, hc, rest, rfl⟩

theorem Follows.replicate {rest : List Tok} {toks : List Char} (h : Follows rest toks) (hc : '&' ∈ toks)
    (k : Nat) : Follows (List.replicate k (.sym '&') ++ rest) toks := by
  cases k with
  | zero => simpa using h
  | succ k => exact .sym hc _

/-- `peek` does not see a symbol the grammar does not let follow. -/
theorem Follows.headIn_false {rest : List Tok} {toks toks' : List Char} (h : Follows rest toks)
    (hd : ∀ c ∈ toks, c ≠ '+' ∧ c ∉ toks') : headIn rest toks' = false := by
  rcases h with rfl | ⟨c, hc, rest', rfl⟩
  · rfl
  · obtain ⟨h₁, h₂⟩ := hd c hc
    simp [Tok.lead, h₁, h₂]

theorem Redirs.headIn_append {us vs} (hR : Redirs us vs) {toks : List Char} (h₁ : '<' ∉ toks)
    (h₂ : '>' ∉ toks) {rest : List Tok} (hr : headIn rest toks = false) : headIn (us ++ rest) toks = false := by
  cases hR with
  | nil => exact hr
  | cons ht _ =>
    simp only [List.mem_cons, List.not_mem_nil, or_false] at ht
    rcases ht with rfl | rfl | rfl <;> simp [Tok.lead, h₁, h₂]

theorem Args.headIn_append {ts argv rs} (hA : Args ts argv rs) {toks : List Char} (ha : 'a' ∉ toks)
    {rest : List Tok} (hr : headIn rest toks = false) : headIn (ts ++ rest) toks = false := by
  cases hA with
  | nil => exact hr
  | cons _ _ => simp [Tok.lead, ha]

theorem headIn_redir {t : Char} (ht : t ∈ ['<', '>', '+']) (rest : List Tok) :
    headIn (.sym t :: rest) ['<', '>'] = true := by
  simp only [List.mem_cons, List.not_mem_nil, or_false] at ht
  rcases ht with rfl | rfl | rfl <;> rfl

section Complete

variable {buf : Nat → Char} {es : Nat}

/-- A parse from `s` returned `c` and stopped where the tokens `rest` begin. -/
def ParsesTo (buf : Nat → Char) (es s : Nat) (c : Cmd) (rest : List Tok) (x : Except Stop (Cmd × Nat)) : Prop :=
  ∃ s', x = .ok (c, s') ∧ s ≤ s' ∧ s' ≤ es ∧ tokens buf es s' = rest

theorem skipws_bounds (h : NulTerm buf es) {s : Nat} (hs : s ≤ es) :
    s ≤ skipws buf es s ∧ skipws buf es s ≤ es ∧ tokens buf es (skipws buf es s) = tokens buf es s := by
  obtain ⟨h₁, h₂, -, -⟩ := @skipws_spec buf es _ hs
  exact ⟨h₁, h₂, tokens_skipws h hs⟩

theorem parseredirs_complete (h : NulTerm buf es) {us vs} (hR : Redirs us vs) :
    ∀ n cmd s rest, s ≤ es → es - s + 1 ≤ n → tokens buf es s = us ++ rest → headIn rest ['<', '>'] = false →
      ParsesTo buf es s (wrap vs cmd) rest (parseredirs buf es n cmd s) := by
  induction hR with
  | nil =>
    intro n cmd s rest hs hn hts hr
    obtain ⟨n, rfl⟩ : ∃ m, n = m + 1 := ⟨n - 1, by omega⟩
    obtain ⟨h₁, h₂, h₃⟩ := skipws_bounds h hs
    have hk := peek_eq h hs (show ∀ c ∈ ['<', '>'], c ∈ symbols by simp [symbols])
    rw [hts, List.nil_append, hr] at hk
    refine ⟨skipws buf es s, ?_, h₁, h₂, by rw [h₃, hts, List.nil_append]⟩
    simp only [parseredirs, hk, Bool.false_eq_true, if_false, wrap_nil]
  | cons ht _ ih =>
    -- the symbol and the file word, then the redirections after them
    intro n cmd s rest hs hn hts hr
    obtain ⟨n, rfl⟩ : ∃ m, n = m + 1 := ⟨n - 1, by omega⟩
    obtain ⟨h₁, h₂, h₃⟩ := skipws_bounds h hs
    rw [List.cons_append, List.cons_append] at hts
    have hk := peek_eq h hs (show ∀ c ∈ ['<', '>'], c ∈ symbols by simp [symbols])
    rw [hts, headIn_redir ht] at hk
    obtain ⟨c₁, q₁, e₁, s₂, hg₁, ht₁, hs₂, hs₂e, hts₂⟩ := gettoken_of_tokens h h₂ (h₃.trans hts)
    obtain ⟨c₂, q₂, e₂, s₃, hg₂, ht₂, hs₃, hs₃e, hts₃⟩ := gettoken_of_tokens h hs₂e hts₂
    obtain rfl := tokOf_eq_sym ht₁
    obtain ⟨rfl, rfl, rfl⟩ := tokOf_eq_word ht₂
    obtain ⟨s', hp, h₄, h₄e, hts'⟩ := ih n (redirOf c₁ cmd (q₂, e₂)) s₃ rest hs₃e (by omega) hts₃ hr
    refine ⟨s', ?_, by omega, h₄e, hts'⟩
    simp only [parseredirs, hk, hg₁, hg₂, if_true, ne_eq, not_true_eq_false, if_false]
    rw [hp, wrap_cons]

theorem parseBacks_complete (h : NulTerm buf es) : ∀ k n cmd s rest, s ≤ es → es - s + 1 ≤ n →
    tokens buf es s = List.replicate k (.sym '&') ++ rest → headIn rest ['&'] = false →
    ParsesTo buf es s (Cmd.back^[k] cmd) rest (parseBacks buf es n cmd s)
  | _, 0, _, _, _, _, hn, _, _ => absurd hn (by omega)
  | 0, n + 1, cmd, s, rest, hs, _, hts, hr => by
    obtain ⟨h₁, h₂, h₃⟩ := skipws_bounds h hs
    have hk := peek_eq h hs (show ∀ c ∈ ['&'], c ∈ symbols by simp [symbols])
    rw [hts, List.replicate_zero, List.nil_append, hr] at hk
    refine ⟨skipws buf es s, ?_, h₁, h₂, by rw [h₃, hts]; rfl⟩
    simp only [parseBacks, hk, Bool.false_eq_true, if_false]
    rfl
  | k + 1, n + 1, cmd, s, rest, hs, hn, hts, hr => by
    obtain ⟨h₁, h₂, h₃⟩ := skipws_bounds h hs
    have hk := peek_eq h hs (show ∀ c ∈ ['&'], c ∈ symbols by simp [symbols])
    rw [hts] at hk
    obtain ⟨c, q, e, s₂, hg, -, hs₂, hs₂e, hts₂⟩ := gettoken_of_tokens h h₂ (h₃.trans hts)
    obtain ⟨s', hp, h₄, h₄e, hts'⟩ := parseBacks_complete h k n (.back cmd) s₂ rest hs₂e (by omega) hts₂ hr
    refine ⟨s', ?_, by omega, h₄e, hts'⟩
    simp only [parseBacks, hk, hg]
    rw [Function.iterate_succ_apply]
    exact hp

/-- The word loop reads the words left to right, each with the redirections after it, and stops
at the symbol or the NUL after them. -/
theorem parseArgs_complete (h : NulTerm buf es) {ts argv rs} (hA : Args ts argv rs) :
    ∀ n argv₀ ret s rest, s ≤ es → es - s + 2 ≤ n → tokens buf es s = ts ++ rest →
      Follows rest ['|', ')', '&', ';'] → argv₀.length + argv.length < MAXARGS →
      ParsesTo buf es s (fillArgv (argv₀ ++ argv) (wrap rs ret)) rest (parseArgs buf es n argv₀ ret s) := by
  induction hA with
  | nil =>
    intro n argv₀ ret s rest hs hn hts hf _
    obtain ⟨n, rfl⟩ : ∃ m, n = m + 1 := ⟨n - 1, by omega⟩
    obtain ⟨h₁, h₂, h₃⟩ := skipws_bounds h hs
    rw [List.nil_append] at hts
    rw [List.append_nil, wrap_nil]
    have hk := peek_eq h hs (show ∀ c ∈ ['|', ')', '&', ';'], c ∈ symbols by simp [symbols])
    rw [hts] at hk
    rcases hf with rfl | ⟨c, hc, rest', rfl⟩
    · -- the NUL ends the command
      rcases hg : gettoken buf es (skipws buf es s) with ⟨t, q, e, s₂⟩
      obtain ⟨rfl, -, hs₂⟩ := gettoken_of_tokens_nil h h₂ (h₃.trans hts) hg
      refine ⟨s₂, ?_, by omega, by omega, by rw [hs₂, tokens_es h]⟩
      simp only [parseArgs, hk, headIn_nil, hg, Bool.false_eq_true, if_false, if_true]
    · -- a symbol that ends the command
      have hc' : headIn (.sym c :: rest') ['|', ')', '&', ';'] = true := by
        simp only [List.mem_cons, List.not_mem_nil, or_false] at hc
        rcases hc with rfl | rfl | rfl | rfl <;> rfl
      refine ⟨skipws buf es s, ?_, h₁, h₂, h₃.trans hts⟩
      simp only [parseArgs, hk, hc', if_true]
  | @cons q e us vs ts argv rs hR _ ih =>
    intro n argv₀ ret s rest hs hn hts hf hlen
    obtain ⟨n, rfl⟩ : ∃ m, n = m + 1 := ⟨n - 1, by omega⟩
    obtain ⟨h₁, h₂, h₃⟩ := skipws_bounds h hs
    rw [List.cons_append] at hts
    have hk := peek_eq h hs (show ∀ c ∈ ['|', ')', '&', ';'], c ∈ symbols by simp [symbols])
    rw [hts] at hk
    obtain ⟨c, q₁, e₁, s₂, hg, htok, hs₂, hs₂e, hts₂⟩ := gettoken_of_tokens h h₂ (h₃.trans hts)
    obtain ⟨rfl, rfl, rfl⟩ := tokOf_eq_word htok
    simp only [List.length_cons] at hlen
    have hmax : ¬ MAXARGS ≤ argv₀.length + 1 := by omega
    -- the redirections after the word, then the words after them
    obtain ⟨s₃, hr, h₄, h₄e, hts₃⟩ := parseredirs_complete h hR n ret s₂ (ts ++ rest) hs₂e (by omega)
      (by rw [hts₂, List.append_assoc]) (‹Args ts argv rs›.headIn_append (by decide) (hf.headIn_false (by simp)))
    obtain ⟨s', hp, h₅, h₅e, hts'⟩ := ih n (argv₀ ++ [(q₁, e₁)]) (wrap vs ret) s₃ rest h₄e (by omega) hts₃ hf
      (by simp only [List.length_append, List.length_singleton]; omega)
    refine ⟨s', ?_, by omega, h₅e, hts'⟩
    have h0 : ('a' : Char) ≠ '\x00' := by decide
    simp only [parseArgs, hk, headIn_cons, hg, h0, if_false, ne_eq, not_true_eq_false, hmax, hr,
      Except.ok_bind, hp, wrap_append, List.append_assoc, List.singleton_append]
    rfl

/-- The functions of the recursion, each with enough fuel: on the tokens of a derivation, followed
by a token the grammar lets follow, each builds the derivation's command and stops there. -/
structure Complete (buf : Nat → Char) (es n : Nat) : Prop where
  line : ∀ s ts rest c, s ≤ es → 4 * (es - s) + 7 ≤ n → tokens buf es s = ts ++ rest → Line ts c →
    Follows rest [')'] → ParsesTo buf es s c rest (parseline buf es n s)
  pipe : ∀ s ts rest c, s ≤ es → 4 * (es - s) + 6 ≤ n → tokens buf es s = ts ++ rest → Pipe ts c →
    Follows rest [')', '&', ';'] → ParsesTo buf es s c rest (parsepipe buf es n s)
  exec : ∀ s ts rest c, s ≤ es → 4 * (es - s) + 5 ≤ n → tokens buf es s = ts ++ rest → Exec ts c →
    Follows rest ['|', ')', '&', ';'] → ParsesTo buf es s c rest (parseexec buf es n s)
  block : ∀ s ts us rs rest c, s ≤ es → 4 * (es - s) + 4 ≤ n →
    tokens buf es s = .sym '(' :: (ts ++ .sym ')' :: us) ++ rest → Line ts c → Redirs us rs →
    Follows rest ['|', ')', '&', ';'] → ParsesTo buf es s (wrap rs c) rest (parseblock buf es n s)

theorem Complete.zero : Complete buf es 0 where
  line _ _ _ _ _ hn := absurd hn (by omega)
  pipe _ _ _ _ _ hn := absurd hn (by omega)
  exec _ _ _ _ _ hn := absurd hn (by omega)
  block _ _ _ _ _ _ _ hn := absurd hn (by omega)

theorem parseline_complete_succ (h : NulTerm buf es) {n : Nat} (ih : Complete buf es n) {s : Nat}
    {ts rest : List Tok} {c : Cmd} (hs : s ≤ es) (hn : 4 * (es - s) + 7 ≤ n + 1)
    (hts : tokens buf es s = ts ++ rest) (hL : Line ts c) (hf : Follows rest [')']) :
    ParsesTo buf es s c rest (parseline buf es (n + 1) s) := by
  cases hL with
  | @pipe ts₁ c₁ k hP =>
    obtain ⟨s₁, hp₁, h₁, h₁e, hts₁⟩ := ih.pipe s ts₁ (List.replicate k (.sym '&') ++ rest) c₁ hs (by omega)
      (by rw [hts, List.append_assoc]) hP ((hf.mono (by decide)).replicate (by decide) k)
    obtain ⟨s₂, hp₂, h₂, h₂e, hts₂⟩ := parseBacks_complete h k n c₁ s₁ rest h₁e (by omega) hts₁
      (hf.headIn_false (by simp))
    obtain ⟨h₃, h₃e, h₃t⟩ := skipws_bounds h h₂e
    have hk := peek_eq h h₂e (show ∀ c ∈ [';'], c ∈ symbols by simp [symbols])
    rw [hts₂, hf.headIn_false (by simp)] at hk
    refine ⟨skipws buf es s₂, ?_, by omega, h₃e, h₃t.trans hts₂⟩
    simp only [parseline, hp₁, hp₂, hk, Except.ok_bind, Bool.false_eq_true, if_false, Except.pure_eq_ok]
  | @list ts₁ c₁ us d k hP hL' =>
    -- the pipe, its `&`s, the `;`, then the rest of the line
    have hrest : tokens buf es s = ts₁ ++ (List.replicate k (.sym '&') ++ .sym ';' :: (us ++ rest)) := by
      rw [hts]
      simp
    obtain ⟨s₁, hp₁, h₁, h₁e, hts₁⟩ := ih.pipe s ts₁ _ c₁ hs (by omega) hrest hP
      ((Follows.sym (by decide) _).replicate (by decide) k)
    obtain ⟨s₂, hp₂, h₂, h₂e, hts₂⟩ := parseBacks_complete h k n c₁ s₁ _ h₁e (by omega) hts₁ rfl
    obtain ⟨h₃, h₃e, h₃t⟩ := skipws_bounds h h₂e
    have hk := peek_eq h h₂e (show ∀ c ∈ [';'], c ∈ symbols by simp [symbols])
    rw [hts₂] at hk
    obtain ⟨t, q, e, s₄, hg, -, hs₄, hs₄e, hts₄⟩ := gettoken_of_tokens h h₃e (h₃t.trans hts₂)
    obtain ⟨s₅, hp₃, h₅, h₅e, hts₅⟩ := ih.line s₄ us rest d hs₄e (by omega) hts₄ hL' hf
    refine ⟨s₅, ?_, by omega, h₅e, hts₅⟩
    simp only [parseline, hp₁, hp₂, hk, headIn_cons, hg, hp₃, Except.ok_bind, Except.pure_eq_ok]
    rfl

theorem parsepipe_complete_succ (h : NulTerm buf es) {n : Nat} (ih : Complete buf es n) {s : Nat}
    {ts rest : List Tok} {c : Cmd} (hs : s ≤ es) (hn : 4 * (es - s) + 6 ≤ n + 1)
    (hts : tokens buf es s = ts ++ rest) (hP : Pipe ts c) (hf : Follows rest [')', '&', ';']) :
    ParsesTo buf es s c rest (parsepipe buf es (n + 1) s) := by
  cases hP with
  | exec hE =>
    obtain ⟨s₁, hp₁, h₁, h₁e, hts₁⟩ := ih.exec s ts rest c hs (by omega) hts hE (hf.mono (by decide))
    obtain ⟨h₂, h₂e, h₂t⟩ := skipws_bounds h h₁e
    have hk := peek_eq h h₁e (show ∀ c ∈ ['|'], c ∈ symbols by simp [symbols])
    rw [hts₁, hf.headIn_false (by simp)] at hk
    refine ⟨skipws buf es s₁, ?_, by omega, h₂e, h₂t.trans hts₁⟩
    simp only [parsepipe, hp₁, hk, Except.ok_bind, Bool.false_eq_true, if_false, Except.pure_eq_ok]
  | @pipe ts₁ c₁ us d hE hP' =>
    obtain ⟨s₁, hp₁, h₁, h₁e, hts₁⟩ := ih.exec s ts₁ (.sym '|' :: (us ++ rest)) c₁ hs (by omega)
      (by rw [hts]; simp) hE (Follows.sym (by decide) _)
    obtain ⟨h₂, h₂e, h₂t⟩ := skipws_bounds h h₁e
    have hk := peek_eq h h₁e (show ∀ c ∈ ['|'], c ∈ symbols by simp [symbols])
    rw [hts₁] at hk
    obtain ⟨t, q, e, s₃, hg, -, hs₃, hs₃e, hts₃⟩ := gettoken_of_tokens h h₂e (h₂t.trans hts₁)
    obtain ⟨s₄, hp₂, h₄, h₄e, hts₄⟩ := ih.pipe s₃ us rest d hs₃e (by omega) hts₃ hP' hf
    refine ⟨s₄, ?_, by omega, h₄e, hts₄⟩
    simp only [parsepipe, hp₁, hk, headIn_cons, hg, hp₂, Except.ok_bind, Except.pure_eq_ok]
    rfl

theorem parseblock_complete_succ (h : NulTerm buf es) {n : Nat} (ih : Complete buf es n) {s : Nat}
    {ts us : List Tok} {rs : List (Char × (Nat × Nat))} {rest : List Tok} {c : Cmd} (hs : s ≤ es)
    (hn : 4 * (es - s) + 4 ≤ n + 1) (hts : tokens buf es s = .sym '(' :: (ts ++ .sym ')' :: us) ++ rest)
    (hL : Line ts c) (hR : Redirs us rs) (hf : Follows rest ['|', ')', '&', ';']) :
    ParsesTo buf es s (wrap rs c) rest (parseblock buf es (n + 1) s) := by
  obtain ⟨h₁, h₁e, h₁t⟩ := skipws_bounds h hs
  rw [List.cons_append] at hts
  have hk := peek_eq h hs (show ∀ c ∈ ['('], c ∈ symbols by simp [symbols])
  rw [hts] at hk
  obtain ⟨t, q, e, s₂, hg, -, hs₂, hs₂e, hts₂⟩ := gettoken_of_tokens h h₁e (h₁t.trans hts)
  -- the line inside, which the `)` follows
  obtain ⟨s₃, hp₁, h₃, h₃e, hts₃⟩ := ih.line s₂ ts (.sym ')' :: (us ++ rest)) c hs₂e (by omega)
    (by rw [hts₂]; simp) hL (Follows.sym (by decide) _)
  obtain ⟨h₄, h₄e, h₄t⟩ := skipws_bounds h h₃e
  have hk' := peek_eq h h₃e (show ∀ c ∈ [')'], c ∈ symbols by simp [symbols])
  rw [hts₃] at hk'
  obtain ⟨t', q', e', s₅, hg', -, hs₅, hs₅e, hts₅⟩ := gettoken_of_tokens h h₄e (h₄t.trans hts₃)
  obtain ⟨s', hp, h₆, h₆e, hts'⟩ := parseredirs_complete h hR n c s₅ rest hs₅e (by omega) hts₅
    (hf.headIn_false (by simp))
  refine ⟨s', ?_, by omega, h₆e, hts'⟩
  simp only [parseblock, hk, headIn_cons, hg, hp₁, hk', hg']
  exact hp

theorem parseexec_complete_succ (h : NulTerm buf es) {n : Nat} (ih : Complete buf es n) {s : Nat}
    {ts rest : List Tok} {c : Cmd} (hs : s ≤ es) (hn : 4 * (es - s) + 5 ≤ n + 1)
    (hts : tokens buf es s = ts ++ rest) (hE : Exec ts c) (hf : Follows rest ['|', ')', '&', ';']) :
    ParsesTo buf es s c rest (parseexec buf es (n + 1) s) := by
  obtain ⟨h₁, h₁e, h₁t⟩ := skipws_bounds h hs
  have hk := peek_eq h hs (show ∀ c ∈ ['('], c ∈ symbols by simp [symbols])
  cases hE with
  | @block ts' c' us rs hL hR =>
    rw [hts, List.cons_append] at hk
    obtain ⟨s', hp, h₂, h₂e, hts'⟩ := ih.block (skipws buf es s) ts' us rs rest c' h₁e (by omega)
      (h₁t.trans hts) hL hR hf
    refine ⟨s', ?_, by omega, h₂e, hts'⟩
    simp only [parseexec, hk, headIn_cons]
    exact hp
  | @simple ts argv rs hS hlen =>
    -- no `(`: the leading redirections, then the word loop
    obtain ⟨us, vs, ts₁, rs₁, rfl, rfl, hR, hA⟩ := hS.split
    have hrest : headIn (ts₁ ++ rest) ['<', '>'] = false :=
      hA.headIn_append (by decide) (hf.headIn_false (by simp))
    have hparen : headIn (ts₁ ++ rest) ['('] = false := hA.headIn_append (by decide) (hf.headIn_false (by simp))
    rw [hts, List.append_assoc, hR.headIn_append (by decide) (by decide) hparen] at hk
    obtain ⟨s₂, hr, h₂, h₂e, hts₂⟩ := parseredirs_complete h hR n (.exec []) (skipws buf es s) (ts₁ ++ rest)
      h₁e (by omega) (by rw [h₁t, hts, List.append_assoc]) hrest
    obtain ⟨s', hp, h₃, h₃e, hts'⟩ := parseArgs_complete h hA n [] (wrap vs (.exec [])) s₂ rest h₂e (by omega)
      hts₂ hf (by simpa using hlen)
    refine ⟨s', ?_, by omega, h₃e, hts'⟩
    simp only [parseexec, hk, Bool.false_eq_true, if_false, hr, Except.ok_bind, hp]
    rw [List.nil_append, ← wrap_append, fillArgv_wrap]
    rfl

/-- Every function of the recursion, with fuel enough, builds every derivation. -/
theorem complete (h : NulTerm buf es) : ∀ n, Complete buf es n
  | 0 => Complete.zero
  | n + 1 =>
    have ih := complete h n
    ⟨fun _ _ _ _ hs hn hts hL hf => parseline_complete_succ h ih hs hn hts hL hf,
      fun _ _ _ _ hs hn hts hP hf => parsepipe_complete_succ h ih hs hn hts hP hf,
      fun _ _ _ _ hs hn hts hE hf => parseexec_complete_succ h ih hs hn hts hE hf,
      fun _ _ _ _ _ _ hs hn hts hL hR hf => parseblock_complete_succ h ih hs hn hts hL hR hf⟩

theorem parsecmd_complete (h : NulTerm buf es) {c : Cmd} (hL : Line (tokens buf es 0) c) :
    parsecmd buf es = .ok (c, nulterminate c buf) := by
  obtain ⟨s', hp, -, hs'e, hts'⟩ := (complete h (4 * es + 7)).line 0 (tokens buf es 0) [] c (Nat.zero_le _)
    (by omega) (List.append_nil _).symm hL (.inl rfl)
  have hk := peek_eq h hs'e (show ∀ c ∈ ([] : List Char), c ∈ symbols by simp)
  rw [hts', headIn_nil, skipws_of_tokens_nil h hs'e hts'] at hk
  simp only [parsecmd, hp, Except.ok_bind, hk, ne_eq, not_true_eq_false, if_false, Except.pure_eq_ok]

end Complete

/-! ### The words after `nulterminate` -/

/-- The words of a command in the order `nulterminate` visits them: each `execcmd`'s `argv` and
each `redircmd`'s file. -/
def words : Cmd → List (Nat × Nat)
  | .exec argv => argv
  | .redir cmd file _ _ => words cmd ++ [file]
  | .pipe left right => words left ++ words right
  | .list left right => words left ++ words right
  | .back cmd => words cmd

/-- The C string at `q`: the bytes before the first NUL, looking at `n` bytes at most. -/
def cstr (m : Nat → Char) : Nat → Nat → List Char
  | 0, _ => []
  | n + 1, q => if m q = '\x00' then [] else m q :: cstr m n (q + 1)

theorem foldl_update_apply (ws : List (Nat × Nat)) :
    ∀ (m : Nat → Char) (i : Nat), ws.foldl (fun m w => Function.update m w.2 '\x00') m i =
      if i ∈ ws.map Prod.snd then '\x00' else m i := by
  induction ws with
  | nil => intro m i; rfl
  | cons w ws ih =>
    intro m i
    rw [List.foldl_cons, ih]
    by_cases hi : i = w.2 <;> by_cases hm : i ∈ ws.map Prod.snd <;> simp [hi, hm]

theorem nulterminate_apply : ∀ (c : Cmd) (m : Nat → Char) (i : Nat),
    nulterminate c m i = if i ∈ (words c).map Prod.snd then '\x00' else m i
  | .exec argv, m, i => foldl_update_apply argv m i
  | .redir cmd file _ _, m, i => by
    rw [nulterminate, Function.update_apply, nulterminate_apply cmd, words]
    by_cases hi : i = file.2 <;> by_cases hm : i ∈ (words cmd).map Prod.snd <;> simp [hi, hm]
  | .pipe left right, m, i | .list left right, m, i => by
    rw [nulterminate, nulterminate_apply right, nulterminate_apply left, words]
    by_cases hr : i ∈ (words right).map Prod.snd <;> by_cases hl : i ∈ (words left).map Prod.snd <;>
      simp_all
  | .back cmd, m, i => nulterminate_apply cmd m i

theorem cstr_eq (m : Nat → Char) {e : Nat} (he : m e = '\x00') :
    ∀ n q, q ≤ e → e - q < n → (∀ i, q ≤ i → i < e → m i ≠ '\x00') →
      cstr m n q = (List.range' q (e - q)).map m
  | 0, _, _, hn, _ => absurd hn (by omega)
  | n + 1, q, hq, hn, hm => by
    rw [cstr]
    rcases Nat.eq_or_lt_of_le hq with rfl | hlt
    · rw [if_pos he, Nat.sub_self]
      rfl
    · rw [if_neg (hm q (Nat.le_refl _) hlt), cstr_eq m he n (q + 1) hlt (by omega)
        (fun i hi hi' => hm i (by omega) hi')]
      obtain ⟨k, hk⟩ : ∃ k, e - q = k + 1 := ⟨e - q - 1, by omega⟩
      rw [hk, List.range'_succ, List.map_cons, show e - (q + 1) = k by omega]

/-! The words of a derivation are words of its token list. -/

theorem words_redirOf {t : Char} (ht : t ∈ ['<', '>', '+']) (cmd : Cmd) (file : Nat × Nat) :
    words (redirOf t cmd file) = words cmd ++ [file] := by
  simp only [List.mem_cons, List.not_mem_nil, or_false] at ht
  rcases ht with rfl | rfl | rfl <;> rfl

theorem words_wrap : ∀ {rs : List (Char × (Nat × Nat))}, (∀ r ∈ rs, r.1 ∈ ['<', '>', '+']) →
    ∀ cmd, words (wrap rs cmd) = words cmd ++ rs.map Prod.snd
  | [], _, cmd => by simp
  | r :: rs, hrs, cmd => by
    rw [wrap_cons, words_wrap (fun r' hr' => hrs r' (List.mem_cons_of_mem r hr')),
      words_redirOf (hrs r List.mem_cons_self)]
    simp

theorem words_back_iterate (k : Nat) (cmd : Cmd) : words (Cmd.back^[k] cmd) = words cmd := by
  induction k with
  | zero => rfl
  | succ k ih => rw [Function.iterate_succ_apply', words, ih]

theorem Redirs.spec {ts : List Tok} {rs : List (Char × (Nat × Nat))} (hrs : Redirs ts rs) :
    (∀ r ∈ rs, r.1 ∈ ['<', '>', '+']) ∧ ∀ r ∈ rs, Tok.word r.2.1 r.2.2 ∈ ts := by
  induction hrs with
  | nil => simp
  | cons ht _ ih =>
    refine ⟨fun r hr => ?_, fun r hr => ?_⟩
    · rcases List.mem_cons.1 hr with rfl | hr
      · exact ht
      · exact ih.1 r hr
    · rcases List.mem_cons.1 hr with rfl | hr
      · simp
      · exact List.mem_cons_of_mem _ (List.mem_cons_of_mem _ (ih.2 r hr))

theorem Simple.spec {ts : List Tok} {argv : List (Nat × Nat)} {rs : List (Char × (Nat × Nat))}
    (hs : Simple ts argv rs) : (∀ r ∈ rs, r.1 ∈ ['<', '>', '+']) ∧
      ∀ w ∈ argv ++ rs.map Prod.snd, Tok.word w.1 w.2 ∈ ts := by
  induction hs with
  | redirs hrs =>
    obtain ⟨h₁, h₂⟩ := hrs.spec
    refine ⟨h₁, fun w hw => ?_⟩
    obtain ⟨r, hr, rfl⟩ := List.mem_map.1 (List.nil_append _ ▸ hw)
    exact h₂ r hr
  | @word ts argv rs us vs q e _ hvs ih =>
    obtain ⟨h₁, h₂⟩ := hvs.spec
    refine ⟨fun r hr => ?_, fun w hw => ?_⟩
    · rcases List.mem_append.1 hr with hr | hr
      · exact ih.1 r hr
      · exact h₁ r hr
    · simp only [List.map_append, List.append_assoc, List.mem_append, List.mem_singleton,
        List.mem_map] at hw
      simp only [List.mem_append, List.mem_cons]
      rcases hw with hw | rfl | ⟨r, hr, rfl⟩ | ⟨r, hr, rfl⟩
      · exact Or.inl (ih.2 w (List.mem_append_left _ hw))
      · exact Or.inr (Or.inl rfl)
      · exact Or.inl (ih.2 _ (List.mem_append_right _ (List.mem_map_of_mem hr)))
      · exact Or.inr (Or.inr (h₂ r hr))

mutual

theorem Line.words_mem {ts : List Tok} {c : Cmd} : Line ts c → ∀ w ∈ words c, Tok.word w.1 w.2 ∈ ts
  | .pipe k hp, w, hw => by
    rw [words_back_iterate] at hw
    exact List.mem_append_left _ (hp.words_mem w hw)
  | .list k hp hl, w, hw => by
    rw [words, words_back_iterate] at hw
    rcases List.mem_append.1 hw with hw | hw
    · exact List.mem_append_left _ (List.mem_append_left _ (hp.words_mem w hw))
    · exact List.mem_append_right _ (List.mem_cons_of_mem _ (hl.words_mem w hw))

theorem Pipe.words_mem {ts : List Tok} {c : Cmd} : Pipe ts c → ∀ w ∈ words c, Tok.word w.1 w.2 ∈ ts
  | .exec he, w, hw => he.words_mem w hw
  | .pipe he hp, w, hw => by
    rw [words] at hw
    rcases List.mem_append.1 hw with hw | hw
    · exact List.mem_append_left _ (he.words_mem w hw)
    · exact List.mem_append_right _ (List.mem_cons_of_mem _ (hp.words_mem w hw))

theorem Exec.words_mem {ts : List Tok} {c : Cmd} : Exec ts c → ∀ w ∈ words c, Tok.word w.1 w.2 ∈ ts
  | .block hl hrs, w, hw => by
    obtain ⟨h₁, h₂⟩ := hrs.spec
    rw [words_wrap h₁] at hw
    rcases List.mem_append.1 hw with hw | hw
    · exact List.mem_cons_of_mem _ (List.mem_append_left _ (hl.words_mem w hw))
    · obtain ⟨r, hr, rfl⟩ := List.mem_map.1 hw
      exact List.mem_cons_of_mem _ (List.mem_append_right _ (List.mem_cons_of_mem _ (h₂ r hr)))
  | .simple hs _, w, hw => by
    obtain ⟨h₁, h₂⟩ := hs.spec
    rw [words_wrap h₁] at hw
    exact h₂ w hw

end

/-- A word of the line reads back as its own bytes after `nulterminate`, when every end it writes
is the end of a word of the line: such an end is not a word byte, so it lies in no word. -/
theorem cstr_nulterminate {buf : Nat → Char} {es : Nat} (h : NulTerm buf es) {c : Cmd}
    (hc : ∀ w ∈ words c, WordAt buf es w.1 w.2) {w : Nat × Nat} (hw : w ∈ words c) :
    cstr (nulterminate c buf) (es + 1) w.1 = (List.range' w.1 (w.2 - w.1)).map buf := by
  obtain ⟨hlt, hle, hbody, -⟩ := hc w hw
  have hkeep : ∀ i, w.1 ≤ i → i < w.2 → nulterminate c buf i = buf i := by
    intro i hi hi'
    rw [nulterminate_apply, if_neg]
    rintro hmem
    obtain ⟨w', hw', rfl⟩ := List.mem_map.1 hmem
    have := (hc w' hw').stop (by omega)
    rw [hbody _ hi hi'] at this
    cases this
  have hend : nulterminate c buf w.2 = '\x00' := by
    rw [nulterminate_apply, if_pos (List.mem_map_of_mem hw)]
  rw [cstr_eq _ hend (es + 1) w.1 (Nat.le_of_lt hlt) (by omega)
    (fun i hi hi' => by rw [hkeep i hi hi']; exact h.body i (by omega))]
  refine List.map_congr_left fun i hi => hkeep i ?_ ?_
  · exact (List.mem_range'_1.1 hi).1
  · have := (List.mem_range'_1.1 hi).2
    omega

/-- `parsecmd` on a NUL-terminated line `[0, es)` of `buf`. It never runs out of fuel, so it stops
with a `panic` or a command; it reads no byte past the NUL, as any memory that agrees with `buf`
up to `es` gives the same outcome; a command it returns is a derivation of the line's tokens
under the grammar, whose words read back, after `nulterminate`, as the bytes of the line that
make them; and every derivation of the tokens is what it returns, so it stops with a `panic`
exactly when the tokens have none. -/
theorem parsecmd_derives {buf : Nat → Char} {es : Nat} (h : NulTerm buf es) :
    parsecmd buf es ≠ .error .fuel ∧
    (∀ buf' : Nat → Char, (∀ i ≤ es, buf' i = buf i) →
      (parsecmd buf' es).map Prod.fst = (parsecmd buf es).map Prod.fst) ∧
    (∀ c m, parsecmd buf es = .ok (c, m) →
      Line (tokens buf es 0) c ∧
      ∀ w ∈ words c, cstr m (es + 1) w.1 = (List.range' w.1 (w.2 - w.1)).map buf) ∧
    ∀ c, Line (tokens buf es 0) c → parsecmd buf es = .ok (c, nulterminate c buf) := by
  refine ⟨?_, fun buf' hb => ?_, fun c m hp => ?_, fun c hL => parsecmd_complete h hL⟩
  · -- enough fuel for the whole line
    refine bind_ne_fuel ((fuel h _).line 0 (Nat.zero_le _) (by omega)) fun ⟨c, s⟩ _ => ?_
    dsimp only
    split_ifs <;> simp
  · simp only [parsecmd, (agree h hb _).line 0 (Nat.zero_le _)]
    rcases hp : parseline buf es (4 * es + 7) 0 with err | ⟨c, s⟩
    · rfl
    obtain ⟨-, hse, -⟩ := (sound h _).line 0 _ (Nat.zero_le _) hp
    simp only [Except.ok_bind, peek_congr hb hse]
    split_ifs <;> rfl
  · rw [parsecmd, Except.bind_eq_ok] at hp
    obtain ⟨⟨c', s⟩, hp₁, hp⟩ := hp
    obtain ⟨-, hse, ts, hts, hL⟩ := (sound h _).line 0 _ (Nat.zero_le _) hp₁
    rcases hk : peek buf es s [] with ⟨b, s₁⟩
    obtain ⟨-, -, hts₁⟩ := peek_skip h hse hk
    simp only [hk] at hp
    -- a leftover token is a `panic`, which `split_ifs` discharges against `hp`
    split_ifs at hp with hs₁
    simp only [not_not] at hs₁
    simp only [Except.pure_eq_ok, Except.ok.injEq, Prod.mk.injEq] at hp
    obtain ⟨rfl, rfl⟩ := hp
    -- the whole line was read: no token is left at `es`
    have hall : tokens buf es 0 = ts := by
      rw [hts, hts₁, hs₁, tokens_es h, List.append_nil]
    rw [hall]
    refine ⟨hL, fun w hw => cstr_nulterminate h (fun w' hw' => ?_) hw⟩
    exact wordAt_of_mem_tokens h (es + 1) 0 (Nat.zero_le _) (by omega) (hall ▸ hL.words_mem w' hw')

/-- The line `echo a>f`. -/
def echoLine (i : Nat) : Char := ['e', 'c', 'h', 'o', ' ', 'a', '>', 'f'].getD i '\x00'

theorem parsecmd_derives_echo :
    ∃ m, parsecmd echoLine 8 = .ok (.redir (.exec [(0, 4), (5, 6)]) (7, 8) (O_WRONLY ||| O_CREATE) 1, m) ∧
      Line (tokens echoLine 8 0) (.redir (.exec [(0, 4), (5, 6)]) (7, 8) (O_WRONLY ||| O_CREATE) 1) := by
  have hnul : NulTerm echoLine 8 := ⟨by decide, by decide⟩
  have hmap : (parsecmd echoLine 8).map Prod.fst =
      .ok (.redir (.exec [(0, 4), (5, 6)]) (7, 8) (O_WRONLY ||| O_CREATE) 1) := by
    decide +kernel
  rcases hp : parsecmd echoLine 8 with err | ⟨c, m⟩
  · rw [hp] at hmap
    cases hmap
  rw [hp] at hmap
  cases hmap
  exact ⟨m, rfl, ((parsecmd_derives hnul).2.2.1 _ _ hp).1⟩

end Xv6.Sh
