import Xv6.Lib.Machine
import Xv6.Lib.Ring

/-!
# Console input

The input half of console.c: the 128-byte ring `input` with its three free-running `uint`
indices (`r` read, `w` write, `e` edit), the line editing `consoleintr` does on each key code, and
the loop of `consoleread`. Key codes are the bytes `getc` returns (`kbdgetc` and `uartgetc` give
values below 256), and a byte of the ring is a `UInt8`. The echo to the screen (`consputc`) and
`procdump` do not touch `input` and are left out.

`Editor` is the line editor the console is meant to be, on lists: the text committed and not yet
read, the text being edited, and all the text ever committed. `Input.committed` and
`Input.pending` read the ring between `r`, `w` and `e`; under `Input.Inv` (the indices in order as
32-bit differences, no newline being edited) each key and each read does to them what the editor
does to its lists. `Console` runs the code and the editor side by side on any interleaving of key
codes and reads.
-/

namespace Xv6.Console

def INPUT_BUF : Nat := 128

/-- A character constant as the byte C compares it with. -/
def ch (c : Char) : UInt8 := c.toUInt8

/-- Control-x. -/
def C (x : Char) : UInt8 := ch x - ch '@'

structure Input where
  buf : Nat → UInt8
  r : UInt32  -- Read index
  w : UInt32  -- Write index
  e : UInt32  -- Edit index

/-- The loop of ^U (kill line): back `e` up over the characters after `w` that are not a newline.
Each turn takes one from `e`, so it runs at most `e - w` times, the fuel it is given. -/
def killLine (buf : Nat → UInt8) (w : UInt32) : Nat → UInt32 → UInt32
  | 0, e => e
  | k + 1, e => if e ≠ w ∧ buf ((e - 1).toNat % INPUT_BUF) ≠ ch '\n' then killLine buf w k (e - 1) else e

/-- One key code of the loop of consoleintr. -/
def intr (inp : Input) (c : UInt8) : Input :=
  if c = C 'P' then inp  -- process listing: procdump, after the loop
  else if c = C 'U' then { inp with e := killLine inp.buf inp.w (inp.e - inp.w).toNat inp.e }
  else if c = C 'H' ∨ c = ch '\x7f' then
    if inp.e ≠ inp.w then { inp with e := inp.e - 1 } else inp
  else if c ≠ 0 ∧ (inp.e - inp.r).toNat < INPUT_BUF then
    let c := if c = ch '\r' then ch '\n' else c
    let inp := { inp with buf := Function.update inp.buf (inp.e.toNat % INPUT_BUF) c, e := inp.e + 1 }
    if c = ch '\n' ∨ c = C 'D' ∨ inp.e = inp.r + INPUT_BUF.toUInt32 then { inp with w := inp.e } else inp
  else inp

/-- consoleintr: the key codes `getc` delivers, in order, under `cons.lock`. -/
def consoleintr (keys : List UInt8) (inp : Input) : Input := keys.foldl intr inp

/-- How a call of consoleread leaves its loop: it returns `target - n`, it returns -1 because the
process was killed while there was nothing to read, or it sleeps on `input.r`. -/
inductive Outcome where
  | ret
  | killed
  | sleep
  deriving DecidableEq, Repr

/-- The loop of consoleread, entered with `n` bytes still wanted of `target` and `dst` the bytes
copied so far; `killed` is `myproc()->killed`. It gives the input after it, `n`, the bytes, and how
the call goes on. -/
def readLoop (target : Nat) (killed : Bool) : Nat → Input → List UInt8 → Input × Nat × List UInt8 × Outcome
  | 0, inp, dst => (inp, 0, dst, .ret)
  | n + 1, inp, dst =>
    if inp.r = inp.w then (inp, n + 1, dst, if killed then .killed else .sleep)
    else
      let c := inp.buf (inp.r.toNat % INPUT_BUF)
      let inp := { inp with r := inp.r + 1 }
      if c = C 'D' then
        -- Save ^D for next time, to make sure caller gets a 0-byte result.
        ((if n + 1 < target then { inp with r := inp.r - 1 } else inp), n + 1, dst, .ret)
      else if c = ch '\n' then (inp, n, dst ++ [c], .ret)
      else readLoop target killed n inp (dst ++ [c])

/-- consoleread(ip, dst, n) from its start: `target = n`, and a call with `n ≤ 0` returns at once. -/
def consoleread (n : Int) (killed : Bool) (inp : Input) : Input × Nat × List UInt8 × Outcome :=
  readLoop n.toNat killed n.toNat inp []

/-! ### The line editor the console implements -/

/-- The text committed and not yet read (with the ^D that end reads), the text being edited, and
all the text ever committed. -/
structure Editor where
  committed : List UInt8
  pending : List UInt8
  text : List UInt8

namespace Editor

/-- A key code: 0 and ^P put nothing in; `\r` is `\n`; backspace and delete take back the last
character being edited, ^U all of them; a newline, a ^D or a full buffer (`INPUT_BUF` characters
not read) commits; a character that finds the buffer full is lost. -/
def key (ed : Editor) (c : UInt8) : Editor :=
  if c = 0 ∨ c = C 'P' then ed
  else if c = C 'U' then { ed with pending := [] }
  else if c = C 'H' ∨ c = ch '\x7f' then { ed with pending := ed.pending.dropLast }
  else if ed.committed.length + ed.pending.length < INPUT_BUF then
    let c := if c = ch '\r' then ch '\n' else c
    let p := ed.pending ++ [c]
    if c = ch '\n' ∨ c = C 'D' ∨ ed.committed.length + p.length = INPUT_BUF then
      { committed := ed.committed ++ p, pending := [], text := ed.text ++ p }
    else { ed with pending := p }
  else ed

/-- A read of at most `n` bytes from the committed text `q`, `first` when it has copied nothing
yet: the bytes, the text left, and whether it ends (`false`: it waits for more text). It stops
after a newline, and at a ^D, which it takes only as its first character. -/
def take (first : Bool) : Nat → List UInt8 → List UInt8 × List UInt8 × Bool
  | 0, q => ([], q, true)
  | _ + 1, [] => ([], [], false)
  | n + 1, c :: q =>
    if c = C 'D' then ([], if first then q else c :: q, true)
    else if c = ch '\n' then ([c], q, true)
    else
      let t := take false n q
      (c :: t.1, t.2.1, t.2.2)

/-- The text with the ^D that end reads taken out: what reads can return. -/
def bytes (q : List UInt8) : List UInt8 := q.filter (· != C 'D')

theorem bytes_append (a b : List UInt8) : bytes (a ++ b) = bytes a ++ bytes b := List.filter_append ..

theorem key_bytes (ed : Editor) (c : UInt8) :
    ∃ p, (ed.key c).committed = ed.committed ++ p ∧ (ed.key c).text = ed.text ++ p := by
  unfold key
  dsimp only
  generalize (if c = ch '\r' then ch '\n' else c) = x
  split_ifs <;> first | exact ⟨_, rfl, rfl⟩ | exact ⟨[], by simp, by simp⟩

/-- A read returns at most `n` bytes, no ^D, and a newline only as its last byte, or not at all
when it waits for more; what it returns and what it leaves are the text it read from. -/
theorem take_spec (first : Bool) (n : Nat) (q : List UInt8) :
    (take first n q).1 ++ bytes (take first n q).2.1 = bytes q ∧ (take first n q).1.length ≤ n ∧
      C 'D' ∉ (take first n q).1 ∧ ch '\n' ∉ (take first n q).1.dropLast ∧
      ((take first n q).2.2 = false → ch '\n' ∉ (take first n q).1) := by
  induction n generalizing first q with
  | zero => simp [take]
  | succ n ih =>
    cases q with
    | nil => simp [take, bytes]
    | cons c q =>
      have hD : C 'D' ≠ ch '\n' := by decide
      by_cases hc : c = C 'D'
      · -- the ^D is taken only by a read that has copied nothing
        subst hc
        cases first <;> simp [take, bytes]
      by_cases hn : c = ch '\n'
      · subst hn
        simpa [take, bytes, hc] using hD
      obtain ⟨h₁, h₂, h₃, h₄, h₅⟩ := ih false q
      simp only [take, if_neg hc, if_neg hn]
      refine ⟨?_, by simpa using h₂, ?_, ?_, fun hd => ?_⟩
      · simpa [bytes, hc] using h₁
      · simpa [Ne.symm hc] using h₃
      · cases ht : (take false n q).1 with
        | nil => simp
        | cons d t =>
          rw [ht] at h₄
          simpa [Ne.symm hn] using h₄
      · simpa [Ne.symm hn] using h₅ hd

end Editor

/-! ### The ring read as the editor's lists -/

namespace Input

variable {inp : Input}

/-- The committed text not yet read: the cells from `r` to `w`. -/
def committed (inp : Input) : List UInt8 := Ring.contents INPUT_BUF inp.buf inp.r.toNat (inp.w - inp.r).toNat

/-- The text being edited: the cells from `w` to `e`. -/
def pending (inp : Input) : List UInt8 := Ring.contents INPUT_BUF inp.buf inp.w.toNat (inp.e - inp.w).toNat

/-- `r`, `w` and `e` are in order and at most `INPUT_BUF` apart, as 32-bit differences, and the
text being edited holds no newline. -/
structure Inv (inp : Input) : Prop where
  w_le : (inp.w - inp.r).toNat ≤ (inp.e - inp.r).toNat
  e_le : (inp.e - inp.r).toNat ≤ INPUT_BUF
  no_newline : ch '\n' ∉ inp.pending

/-! #### Indices as 32-bit differences -/

section Index

variable {a b c : UInt32}

theorem toNat_sub_add (h : (b - a).toNat ≤ (c - a).toNat) : (b - a).toNat + (c - b).toNat = (c - a).toNat := by
  have := a.toNat_lt; have := b.toNat_lt; have := c.toNat_lt
  simp only [UInt32.toNat_sub] at *
  omega

/-- Positions equal as 32-bit numbers are the same cell, since `INPUT_BUF` divides `2^32`. -/
theorem add_sub_mod : (a.toNat + (b - a).toNat) % INPUT_BUF = b.toNat % INPUT_BUF := by
  have := a.toNat_lt; have := b.toNat_lt
  simp only [UInt32.toNat_sub, INPUT_BUF]
  omega

theorem add_one_mod : (a + 1).toNat % INPUT_BUF = (a.toNat + 1) % INPUT_BUF := by
  have := a.toNat_lt
  simp only [UInt32.toNat_add, UInt32.toNat_one, INPUT_BUF]
  omega

theorem toNat_sub_eq_zero : (b - a).toNat = 0 ↔ b = a := by
  have := a.toNat_lt; have := b.toNat_lt
  rw [← UInt32.toNat_inj, UInt32.toNat_sub]
  omega

/-- `e++` with fewer than `INPUT_BUF` characters after `a`. -/
theorem toNat_add_one_sub (h : (c - a).toNat < INPUT_BUF) : (c + 1 - a).toNat = (c - a).toNat + 1 := by
  have := a.toNat_lt; have := c.toNat_lt
  simp only [UInt32.toNat_sub, UInt32.toNat_add, UInt32.toNat_one, INPUT_BUF] at *
  omega

/-- `r++` or `e--` with `b ≠ a`: one less between them. -/
theorem toNat_sub_add_one (h : a ≠ b) : (b - (a + 1)).toNat = (b - a).toNat - 1 := by
  have := a.toNat_lt; have := b.toNat_lt
  have h' : a.toNat ≠ b.toNat := fun e => h (UInt32.toNat_inj.1 e)
  simp only [UInt32.toNat_sub, UInt32.toNat_add, UInt32.toNat_one] at *
  omega

theorem toNat_sub_one_sub (h : b ≠ a) : (b - 1 - a).toNat = (b - a).toNat - 1 := by
  have := a.toNat_lt; have := b.toNat_lt
  have h' : a.toNat ≠ b.toNat := fun e => h (UInt32.toNat_inj.1 e).symm
  simp only [UInt32.toNat_sub, UInt32.toNat_one] at *
  omega

theorem eq_add_iff {n : Nat} (hn : n < 2 ^ 32) : c = a + n.toUInt32 ↔ (c - a).toNat = n := by
  have := a.toNat_lt; have := c.toNat_lt
  rw [← UInt32.toNat_inj, UInt32.toNat_add, UInt32.toNat_sub, Nat.toUInt32, UInt32.toNat_ofNat', Nat.mod_eq_of_lt hn]
  omega

end Index

/-! #### What each change of the ring does to the two texts -/

theorem committed_append_pending (h : (inp.w - inp.r).toNat ≤ (inp.e - inp.r).toNat) :
    inp.committed ++ inp.pending = Ring.contents INPUT_BUF inp.buf inp.r.toNat (inp.e - inp.r).toNat := by
  rw [committed, pending, ← toNat_sub_add h, Ring.contents_add]
  exact congrArg _ (Ring.contents_congr add_sub_mod.symm)

/-- `input.w = input.e`: the text being edited is committed. -/
theorem commit (h : (inp.w - inp.r).toNat ≤ (inp.e - inp.r).toNat) :
    ({ inp with w := inp.e } : Input).committed = inp.committed ++ inp.pending ∧
      ({ inp with w := inp.e } : Input).pending = [] := by
  refine ⟨(committed_append_pending h).symm, ?_⟩
  simp [pending]

/-- `input.buf[input.e++ % INPUT_BUF] = c` with fewer than `INPUT_BUF` characters unread. -/
theorem put (h : (inp.w - inp.r).toNat ≤ (inp.e - inp.r).toNat) (hlt : (inp.e - inp.r).toNat < INPUT_BUF)
    (x : UInt8) :
    ({ inp with buf := Function.update inp.buf (inp.e.toNat % INPUT_BUF) x, e := inp.e + 1 } : Input).committed =
        inp.committed ∧
      ({ inp with buf := Function.update inp.buf (inp.e.toNat % INPUT_BUF) x, e := inp.e + 1 } : Input).pending =
        inp.pending ++ [x] := by
  have hwe : (inp.e - inp.w).toNat < INPUT_BUF := by
    have := toNat_sub_add h
    omega
  constructor
  · -- the cells from `r` to `w` lie before `e`, less than a ring apart
    simp only [committed]
    refine Ring.contents_update_of_ne (fun k hk => ?_) x
    rw [← add_sub_mod (a := inp.r)]
    exact Ring.add_mod_ne (by omega) hlt
  · simp only [pending]
    rw [toNat_add_one_sub hwe, ← add_sub_mod (a := inp.w), Ring.contents_push hwe]

/-- Backspace: `input.e--` over a character being edited takes back the last one. -/
theorem erase (h : inp.e ≠ inp.w) :
    ({ inp with e := inp.e - 1 } : Input).committed = inp.committed ∧
      ({ inp with e := inp.e - 1 } : Input).pending = inp.pending.dropLast := by
  refine ⟨rfl, ?_⟩
  have hpos : (inp.e - inp.w).toNat = (inp.e - 1 - inp.w).toNat + 1 := by
    have := toNat_sub_one_sub h
    have : (inp.e - inp.w).toNat ≠ 0 := fun h0 => h (toNat_sub_eq_zero.1 h0)
    omega
  simp only [pending]
  rw [hpos, Ring.contents_succ, List.dropLast_concat]

/-- ^U backs `e` up to `w` when no newline is being edited. -/
theorem killLine_eq (buf : Nat → UInt8) (w : UInt32) :
    ∀ k e, (e - w).toNat = k → ch '\n' ∉ Ring.contents INPUT_BUF buf w.toNat k → killLine buf w k e = w
  | 0, e, hk, _ => by rw [killLine, (toNat_sub_eq_zero.1 hk)]
  | k + 1, e, hk, hn => by
    have hne : e ≠ w := fun he => by simp [he] at hk
    -- the cell before `e` is the last one being edited
    have hlast : buf ((e - 1).toNat % INPUT_BUF) ≠ ch '\n' := by
      have hpos : (e - 1).toNat % INPUT_BUF = (w.toNat + k) % INPUT_BUF := by
        rw [← add_sub_mod (a := w) (b := e - 1), toNat_sub_one_sub hne, hk, Nat.add_sub_cancel]
      rw [hpos]
      intro hc
      exact hn (by rw [Ring.contents_succ, hc]; simp)
    rw [killLine, if_pos ⟨hne, hlast⟩]
    refine killLine_eq buf w k (e - 1) (by rw [toNat_sub_one_sub hne, hk, Nat.add_sub_cancel]) ?_
    exact fun hc => hn (by rw [Ring.contents_succ]; exact List.mem_append_left _ hc)

/-- `input.r++` over a committed character takes the first one. -/
theorem pop (hne : inp.r ≠ inp.w) :
    inp.committed = inp.buf (inp.r.toNat % INPUT_BUF) :: ({ inp with r := inp.r + 1 } : Input).committed := by
  have hpos : (inp.w - inp.r).toNat = (inp.w - (inp.r + 1)).toNat + 1 := by
    have := toNat_sub_add_one hne
    have : (inp.w - inp.r).toNat ≠ 0 := fun h0 => hne (toNat_sub_eq_zero.1 h0).symm
    omega
  simp only [committed]
  rw [hpos, Ring.contents_pop]
  exact congrArg _ (Ring.contents_congr add_one_mod.symm)

end Input

/-! ### Each key does to the ring what the editor does to its lists -/

/-- The ring holds the editor's committed and pending text, and the indices are in order. -/
structure Sim (inp : Input) (ed : Editor) : Prop where
  inv : inp.Inv
  committed : inp.committed = ed.committed
  pending : inp.pending = ed.pending

namespace Sim

open Input

variable {inp : Input} {ed : Editor}

theorem length (h : Sim inp ed) : ed.committed.length + ed.pending.length = (inp.e - inp.r).toNat := by
  rw [← h.committed, ← h.pending, Input.committed, Input.pending, Ring.length_contents,
    Ring.length_contents, toNat_sub_add h.inv.w_le]

/-- ^U: no newline is being edited, so the loop backs `e` up to `w`. -/
theorem kill (h : Sim inp ed) :
    Sim { inp with e := killLine inp.buf inp.w (inp.e - inp.w).toNat inp.e } { ed with pending := [] } := by
  have hk : killLine inp.buf inp.w (inp.e - inp.w).toNat inp.e = inp.w :=
    killLine_eq _ _ _ _ rfl h.inv.no_newline
  have hle := toNat_sub_add h.inv.w_le
  have hp : ({ inp with e := inp.w } : Input).pending = [] := by simp [Input.pending]
  refine ⟨⟨?_, ?_, ?_⟩, h.committed, ?_⟩ <;> simp only [hk]
  · exact le_refl _
  · have := h.inv.e_le
    show (inp.w - inp.r).toNat ≤ INPUT_BUF
    omega
  · simp [hp]
  · exact hp

/-- Backspace and delete. -/
theorem erase (h : Sim inp ed) :
    Sim (if inp.e ≠ inp.w then { inp with e := inp.e - 1 } else inp) { ed with pending := ed.pending.dropLast } := by
  split_ifs with hne
  · obtain ⟨hc, hp⟩ := Input.erase hne
    have hle := toNat_sub_add h.inv.w_le
    have hpos : (inp.e - inp.w).toNat ≠ 0 := fun h0 => hne (toNat_sub_eq_zero.1 h0)
    have her : inp.e ≠ inp.r := fun he => absurd (toNat_sub_eq_zero.2 he) (by omega)
    have hsub := toNat_sub_one_sub her
    refine ⟨⟨?_, ?_, ?_⟩, hc.trans h.committed, hp.trans (by rw [h.pending])⟩
    · show (inp.w - inp.r).toNat ≤ (inp.e - 1 - inp.r).toNat
      omega
    · show (inp.e - 1 - inp.r).toNat ≤ INPUT_BUF
      have := h.inv.e_le
      omega
    · rw [hp]
      exact fun hn => h.inv.no_newline (List.dropLast_subset _ hn)
  · -- nothing is being edited
    have hp : inp.pending = [] := by simp [Input.pending, not_not.1 hne]
    refine ⟨h.inv, h.committed, ?_⟩
    rw [hp, ← h.pending, hp]
    rfl

/-- A character put in with fewer than `INPUT_BUF` unread; a newline, a ^D or a full buffer
commits. -/
theorem type (h : Sim inp ed) (hlt : (inp.e - inp.r).toNat < INPUT_BUF) (x : UInt8) :
    Sim (let inp := { inp with buf := Function.update inp.buf (inp.e.toNat % INPUT_BUF) x, e := inp.e + 1 }
        if x = ch '\n' ∨ x = C 'D' ∨ inp.e = inp.r + INPUT_BUF.toUInt32 then { inp with w := inp.e } else inp)
      (let p := ed.pending ++ [x]
        if x = ch '\n' ∨ x = C 'D' ∨ ed.committed.length + p.length = INPUT_BUF then
          { committed := ed.committed ++ p, pending := [], text := ed.text ++ p }
        else { ed with pending := p }) := by
  dsimp only
  obtain ⟨hc, hp⟩ := Input.put h.inv.w_le hlt x
  set inp₁ : Input := { inp with buf := Function.update inp.buf (inp.e.toNat % INPUT_BUF) x, e := inp.e + 1 }
  have hlen : (inp₁.e - inp₁.r).toNat = (inp.e - inp.r).toNat + 1 := toNat_add_one_sub hlt
  have hw := h.inv.w_le
  -- the code's test for a full buffer is the editor's
  have hfull : inp₁.e = inp₁.r + INPUT_BUF.toUInt32 ↔
      ed.committed.length + (ed.pending ++ [x]).length = INPUT_BUF := by
    rw [eq_add_iff (by decide), hlen, List.length_append, List.length_singleton, ← Nat.add_assoc, h.length]
  by_cases hcommit : x = ch '\n' ∨ x = C 'D' ∨ inp₁.e = inp₁.r + INPUT_BUF.toUInt32
  · rw [if_pos hcommit, if_pos (by rwa [← hfull])]
    obtain ⟨hc', hp'⟩ := @Input.commit inp₁ (by show (inp.w - inp.r).toNat ≤ _; omega)
    refine ⟨⟨le_refl _, ?_, ?_⟩, ?_, hp'⟩
    · show (inp₁.e - inp₁.r).toNat ≤ INPUT_BUF
      omega
    · show ch '\n' ∉ ({ inp₁ with w := inp₁.e } : Input).pending
      simp [hp']
    · rw [hc', hc, hp, h.committed, h.pending]
  · rw [if_neg hcommit, if_neg (by rwa [← hfull])]
    refine ⟨⟨?_, ?_, ?_⟩, hc.trans h.committed, by rw [hp, h.pending]⟩
    · show (inp.w - inp.r).toNat ≤ (inp₁.e - inp₁.r).toNat
      omega
    · show (inp₁.e - inp₁.r).toNat ≤ INPUT_BUF
      omega
    · rw [hp, List.mem_append, List.mem_singleton, not_or]
      exact ⟨h.inv.no_newline, fun hx => hcommit (.inl hx.symm)⟩

theorem intr (h : Sim inp ed) (c : UInt8) : Sim (Console.intr inp c) (ed.key c) := by
  unfold Console.intr Editor.key
  by_cases hP : c = C 'P'
  · rw [if_pos hP, if_pos (.inr hP)]
    exact h
  by_cases h0 : c = 0
  · -- key code 0 reaches the default case, whose `c != 0` fails
    subst h0
    rw [if_neg hP, if_neg (by decide), if_neg (by decide), if_neg (fun h' => h'.1 rfl), if_pos (.inl rfl)]
    exact h
  rw [if_neg hP, if_neg (not_or.2 ⟨h0, hP⟩)]
  by_cases hU : c = C 'U'
  · rw [if_pos hU, if_pos hU]
    exact h.kill
  rw [if_neg hU, if_neg hU]
  by_cases hH : c = C 'H' ∨ c = ch '\x7f'
  · rw [if_pos hH, if_pos hH]
    exact h.erase
  rw [if_neg hH, if_neg hH]
  by_cases hlt : (inp.e - inp.r).toNat < INPUT_BUF
  · rw [if_pos ⟨h0, hlt⟩, if_pos (show ed.committed.length + ed.pending.length < INPUT_BUF by rw [h.length]; exact hlt)]
    exact h.type hlt (if c = ch '\r' then ch '\n' else c)
  · rw [if_neg (fun h' => hlt h'.2),
      if_neg (show ¬ed.committed.length + ed.pending.length < INPUT_BUF by rwa [h.length])]
    exact h

theorem consoleintr (h : Sim inp ed) (keys : List UInt8) :
    Sim (Console.consoleintr keys inp) (keys.foldl Editor.key ed) := by
  induction keys generalizing inp ed with
  | nil => exact h
  | cons c keys ih => exact ih (h.intr c)

/-! ### Each read takes from the ring what the editor's read takes -/

theorem pop (h : Sim inp ed) (hne : inp.r ≠ inp.w) :
    ed.committed = inp.buf (inp.r.toNat % INPUT_BUF) :: ({ inp with r := inp.r + 1 } : Input).committed ∧
      Sim { inp with r := inp.r + 1 } { ed with committed := ({ inp with r := inp.r + 1 } : Input).committed } := by
  have hw := toNat_sub_add_one hne
  have hw0 : (inp.w - inp.r).toNat ≠ 0 := fun h0 => hne (toNat_sub_eq_zero.1 h0).symm
  -- the read index is before `w`, so before `e` as well
  have her : inp.r ≠ inp.e := fun he => hw0 (by have := h.inv.w_le; rw [he] at this ⊢; simpa using this)
  have he := toNat_sub_add_one her
  refine ⟨h.committed ▸ Input.pop hne, ⟨⟨?_, ?_, h.inv.no_newline⟩, rfl, h.pending⟩⟩
  · show (inp.w - (inp.r + 1)).toNat ≤ (inp.e - (inp.r + 1)).toNat
    have := h.inv.w_le
    omega
  · show (inp.e - (inp.r + 1)).toNat ≤ INPUT_BUF
    have := h.inv.e_le
    omega

/-- The loop of consoleread reads the committed text as `Editor.take` does, `first` while it has
copied nothing, and leaves the rest. -/
theorem readLoop (killed : Bool) {target n : Nat} {dst : List UInt8} (h : Sim inp ed)
    (hn : dst.length + n = target) :
    Sim (Console.readLoop target killed n inp dst).1
        { ed with committed := (Editor.take dst.isEmpty n ed.committed).2.1 } ∧
      (Console.readLoop target killed n inp dst).2.2.1 = dst ++ (Editor.take dst.isEmpty n ed.committed).1 ∧
      (Console.readLoop target killed n inp dst).2.2.2 =
        (if (Editor.take dst.isEmpty n ed.committed).2.2 then .ret else if killed then .killed else .sleep) ∧
      (Console.readLoop target killed n inp dst).2.1 + (Editor.take dst.isEmpty n ed.committed).1.length = n := by
  induction n generalizing inp ed dst with
  | zero => exact ⟨h, by simp [Console.readLoop, Editor.take], rfl, rfl⟩
  | succ n ih =>
    by_cases hrw : inp.r = inp.w
    · -- nothing committed: the read sleeps, or returns -1 when the process is killed
      have hq : ed.committed = [] := by rw [← h.committed, Input.committed, hrw]; simp
      rw [Console.readLoop, if_pos hrw, hq]
      refine ⟨?_, by simp [Editor.take], rfl, rfl⟩
      show Sim inp { ed with committed := [] }
      rw [← hq]
      exact h
    obtain ⟨hq, h'⟩ := h.pop hrw
    rw [Console.readLoop, if_neg hrw, hq]
    dsimp only
    by_cases hD : inp.buf (inp.r.toNat % INPUT_BUF) = C 'D'
    · -- a ^D is put back unless it is the first character
      rw [if_pos hD, Editor.take, if_pos hD]
      by_cases hfirst : n + 1 < target
      · have hne : dst.isEmpty = false := by
          cases dst with
          | nil => simp at hn; omega
          | cons _ _ => rfl
        rw [if_pos hfirst, hne, UInt32.add_sub_cancel]
        refine ⟨?_, by simp, rfl, by simp⟩
        rw [← hq]
        exact h
      · have hne : dst.isEmpty = true := by
          cases dst with
          | nil => rfl
          | cons _ _ => simp at hn; omega
        rw [if_neg hfirst, hne]
        exact ⟨h', by simp, rfl, by simp⟩
    rw [if_neg hD, Editor.take, if_neg hD]
    by_cases hnl : inp.buf (inp.r.toNat % INPUT_BUF) = ch '\n'
    · rw [if_pos hnl, if_pos hnl]
      exact ⟨h', by simp [hnl], rfl, by simp⟩
    rw [if_neg hnl, if_neg hnl]
    -- an ordinary character: copied, and the loop goes on
    obtain ⟨h₁, h₂, h₃, h₄⟩ := @ih _ _ (dst ++ [inp.buf (inp.r.toNat % INPUT_BUF)]) h' (by simp; omega)
    have hcopied : (dst ++ [inp.buf (inp.r.toNat % INPUT_BUF)]).isEmpty = false := by simp
    rw [hcopied] at h₁ h₂ h₃ h₄
    dsimp only at h₁ h₂ h₃ h₄ ⊢
    refine ⟨h₁, by rw [h₂]; simp, h₃, ?_⟩
    simp only [List.length_cons]
    omega

end Sim

/-! ### The console over whole runs -/

/-- A consoleread asleep on `input.r`: the number of its call, its `target`, the bytes it still
wants, and those it has copied to `dst`. -/
structure Reader where
  id : Nat
  target : Nat
  n : Nat
  dst : List UInt8
  deriving DecidableEq

/-- A consoleread that returned: the number of its call, its `target`, the value it returned
(`target - n`, or -1), and the bytes it had copied to `dst`. -/
structure Return where
  id : Nat
  target : Nat
  value : Int
  dst : List UInt8
  deriving DecidableEq

/-- The console with the processes that read it, and the editor run beside it on the same events.
`readers p` is the read process `p` sleeps in, `calls` numbers the calls of consoleread, and
`chunks` lists in order the bytes each pass of a read took from the ring, with its call's number. -/
structure State where
  input : Input
  readers : Nat → Option Reader
  killed : Nat → Bool
  calls : Nat
  editor : Editor
  chunks : List (Nat × List UInt8)
  returned : List Return

inductive Event where
  /-- An interrupt: consoleintr with the key codes `getc` delivers. -/
  | intr (keys : List UInt8)
  /-- Process `p`, in no read, calls consoleread(ip, dst, n). -/
  | read (p : Nat) (n : Int)
  /-- Process `p`, asleep in consoleread, runs again, woken by a commit or by kill. -/
  | wake (p : Nat)
  /-- kill(p) sets `p->killed`. -/
  | kill (p : Nat)

/-- The bytes the passes of call `k` took, in order. -/
def taken (chunks : List (Nat × List UInt8)) (k : Nat) : List UInt8 :=
  ((chunks.filter (·.1 == k)).map Prod.snd).flatten

theorem taken_append_self (cs : List (Nat × List UInt8)) (k : Nat) (b : List UInt8) :
    taken (cs ++ [(k, b)]) k = taken cs k ++ b := by
  simp [taken, List.filter_append]

theorem taken_append_of_ne (cs : List (Nat × List UInt8)) {j k : Nat} (b : List UInt8) (h : j ≠ k) :
    taken (cs ++ [(j, b)]) k = taken cs k := by
  simp [taken, List.filter_append, h]

theorem taken_of_lt {cs : List (Nat × List UInt8)} {k : Nat} (h : ∀ c ∈ cs, c.1 < k) : taken cs k = [] := by
  have hnil : cs.filter (·.1 == k) = [] :=
    List.filter_eq_nil_iff.2 fun c hc => by simpa using Nat.ne_of_lt (h c hc)
  rw [taken, hnil]
  rfl

theorem not_mem_dropLast_append {x : UInt8} {a b : List UInt8} (ha : x ∉ a) (hb : x ∉ b.dropLast) :
    x ∉ (a ++ b).dropLast := by
  cases b with
  | nil => simpa using fun hm => ha (List.dropLast_subset _ hm)
  | cons c b =>
    rw [List.dropLast_append_of_ne_nil (List.cons_ne_nil c b)]
    simp [ha, hb]

theorem update_ite_eq_some {α : Type _} {f : Nat → Option α} {p q : Nat} {c : Prop} [Decidable c] {x y : α}
    (h : Function.update f p (if c then some x else none) q = some y) :
    (q = p ∧ c ∧ y = x) ∨ (q ≠ p ∧ f q = some y) := by
  by_cases hqp : q = p
  · subst hqp
    rw [Function.update_self] at h
    split_ifs at h with hc
    exact .inl ⟨rfl, hc, (Option.some.inj h).symm⟩
  · rw [Function.update_of_ne hqp] at h
    exact .inr ⟨hqp, h⟩

theorem mem_ite_append {α : Type _} {l : List α} {x r : α} {c : Prop} [Decidable c]
    (h : r ∈ (if c then l else l ++ [x])) : r ∈ l ∨ (¬c ∧ r = x) := by
  by_cases hc : c
  · rw [if_pos hc] at h
    exact .inl h
  · rw [if_neg hc] at h
    rcases List.mem_append.1 h with h | h
    · exact .inl h
    · exact .inr ⟨hc, List.mem_singleton.1 h⟩

namespace State

/-- Process `p` runs the loop of its read `rd`, in the code and in the editor: the bytes the pass
copies are logged under the call's number, and the call returns them, or -1, or sleeps again. -/
def resume (s : State) (p : Nat) (rd : Reader) : State :=
  let res := readLoop rd.target (s.killed p) rd.n s.input rd.dst
  { s with
    input := res.1
    readers := Function.update s.readers p
      (if res.2.2.2 = .sleep then some { rd with n := res.2.1, dst := res.2.2.1 } else none)
    editor := { s.editor with committed := (Editor.take rd.dst.isEmpty rd.n s.editor.committed).2.1 }
    chunks := s.chunks ++ [(rd.id, res.2.2.1.drop rd.dst.length)]
    returned :=
      if res.2.2.2 = .sleep then s.returned
      else s.returned ++
        [⟨rd.id, rd.target, if res.2.2.2 = .killed then -1 else ((rd.target - res.2.1 : Nat) : Int), res.2.2.1⟩] }

/-- One event. A process is in one read at a time, and a new call takes the next number. -/
def next (s : State) : Event → Option State
  | .intr keys => some { s with input := consoleintr keys s.input, editor := keys.foldl Editor.key s.editor }
  | .read p n =>
    if (s.readers p).isNone then some ({ s with calls := s.calls + 1 }.resume p ⟨s.calls, n.toNat, n.toNat, []⟩)
    else none
  | .wake p => (s.readers p).map (s.resume p)
  | .kill p => some { s with killed := Function.update s.killed p true }

/-- The three indices equal, at any value, no process in a read, and nothing typed or read. -/
def Init (s : State) : Prop :=
  s.input.r = s.input.w ∧ s.input.w = s.input.e ∧ (∀ p, s.readers p = none) ∧ s.editor = ⟨[], [], []⟩ ∧
    s.chunks = [] ∧ s.returned = []

def Reachable : State → Prop := Machine.Reachable Init fun s s' => ∃ ev, s.next ev = some s'

/-- The ring holds the editor's texts; the chunks the reads took, then the bytes committed and not
read, are all the bytes committed; each read holds or returned exactly the bytes its own passes
took, at most its `target`, a newline only last and no ^D; and the calls' numbers are distinct. -/
structure Inv (s : State) : Prop where
  sim : Sim s.input s.editor
  reader : ∀ p rd, s.readers p = some rd → rd.dst = taken s.chunks rd.id ∧ rd.id < s.calls ∧
    rd.dst.length + rd.n = rd.target ∧ ch '\n' ∉ rd.dst ∧ C 'D' ∉ rd.dst
  distinct : ∀ p q rd rd', s.readers p = some rd → s.readers q = some rd' → rd.id = rd'.id → p = q
  returned : ∀ r ∈ s.returned, r.dst = taken s.chunks r.id ∧ r.id < s.calls ∧
    ∀ p rd, s.readers p = some rd → rd.id ≠ r.id
  ok : ∀ r ∈ s.returned, r.dst.length ≤ r.target ∧ ch '\n' ∉ r.dst.dropLast ∧ C 'D' ∉ r.dst ∧
    (r.value = r.dst.length ∨ r.value = -1)
  chunks : ∀ c ∈ s.chunks, c.1 < s.calls
  bytes : (s.chunks.map Prod.snd).flatten ++ Editor.bytes s.editor.committed = Editor.bytes s.editor.text

variable {s s' : State}

theorem Inv.init (h : Init s) : Inv s := by
  obtain ⟨hrw, hwe, hr, he, hc, hret⟩ := h
  refine ⟨⟨⟨?_, ?_, ?_⟩, ?_, ?_⟩, fun p rd h => by simp [hr] at h, fun p _ rd _ h => by simp [hr] at h,
    by simp [hret], by simp [hret], by simp [hc], ?_⟩ <;>
    simp [he, hc, Input.committed, Input.pending, hrw, hwe, Editor.bytes, INPUT_BUF]

theorem foldl_key_bytes (keys : List UInt8) (ed : Editor) :
    ∃ p, (keys.foldl Editor.key ed).committed = ed.committed ++ p ∧ (keys.foldl Editor.key ed).text = ed.text ++ p := by
  induction keys generalizing ed with
  | nil => exact ⟨[], by simp, by simp⟩
  | cons c keys ih =>
    obtain ⟨p, hc, ht⟩ := Editor.key_bytes ed c
    obtain ⟨p', hc', ht'⟩ := ih (ed.key c)
    exact ⟨p ++ p', by simp [hc', hc], by simp [ht', ht]⟩

theorem Inv.intr (h : Inv s) (keys : List UInt8) :
    Inv { s with input := consoleintr keys s.input, editor := keys.foldl Editor.key s.editor } := by
  obtain ⟨p, hc, ht⟩ := foldl_key_bytes keys s.editor
  refine ⟨h.sim.consoleintr keys, h.reader, h.distinct, h.returned, h.ok, h.chunks, ?_⟩
  show (s.chunks.map Prod.snd).flatten ++ Editor.bytes (keys.foldl Editor.key s.editor).committed =
    Editor.bytes (keys.foldl Editor.key s.editor).text
  rw [hc, ht, Editor.bytes_append, Editor.bytes_append, ← List.append_assoc, h.bytes]

theorem Inv.kill (h : Inv s) (p : Nat) : Inv { s with killed := Function.update s.killed p true } :=
  ⟨h.sim, h.reader, h.distinct, h.returned, h.ok, h.chunks, h.bytes⟩

theorem Inv.call (h : Inv s) : Inv { s with calls := s.calls + 1 } :=
  ⟨h.sim, fun p rd hrd => by
      obtain ⟨e₁, e₂, e₃⟩ := h.reader p rd hrd
      exact ⟨e₁, Nat.lt_succ_of_lt e₂, e₃⟩,
    h.distinct, fun r hr => by
      obtain ⟨e₁, e₂, e₃⟩ := h.returned r hr
      exact ⟨e₁, Nat.lt_succ_of_lt e₂, e₃⟩,
    h.ok, fun c hc => Nat.lt_succ_of_lt (h.chunks c hc), h.bytes⟩

/-- A pass of a read: the code and the editor take the same bytes, logged under the call's number.
Only the other readers and the reads that returned must have numbers other than the call's. -/
theorem Inv.resume {p : Nat} {rd : Reader} (h : Inv s) (htaken : rd.dst = taken s.chunks rd.id)
    (hid : rd.id < s.calls) (hn : rd.dst.length + rd.n = rd.target) (hnl : ch '\n' ∉ rd.dst)
    (hD : C 'D' ∉ rd.dst) (hother : ∀ q rd', s.readers q = some rd' → q ≠ p → rd'.id ≠ rd.id)
    (hret : ∀ r ∈ s.returned, r.id ≠ rd.id) :
    Inv (s.resume p rd) := by
  obtain ⟨h₁, h₂, h₃, h₄⟩ := h.sim.readLoop (s.killed p) hn
  obtain ⟨t₁, t₂, t₃, t₄, t₅⟩ := Editor.take_spec rd.dst.isEmpty rd.n s.editor.committed
  unfold State.resume
  dsimp only
  generalize readLoop rd.target (s.killed p) rd.n s.input rd.dst = res at h₁ h₂ h₃ h₄
  generalize Editor.take rd.dst.isEmpty rd.n s.editor.committed = t at h₁ h₂ h₃ h₄ t₁ t₂ t₃ t₄ t₅
  obtain ⟨inp', n', dst', o⟩ := res
  obtain ⟨b, q', done⟩ := t
  dsimp only at h₁ h₂ h₃ h₄ t₁ t₂ t₃ t₄ t₅ ⊢
  subst h₂
  rw [List.drop_left]
  -- the log's new chunk is what the editor's read took
  have hself : taken (s.chunks ++ [(rd.id, b)]) rd.id = rd.dst ++ b := by rw [taken_append_self, htaken]
  have hkeep : ∀ k, rd.id ≠ k → taken (s.chunks ++ [(rd.id, b)]) k = taken s.chunks k :=
    fun k hk => taken_append_of_ne _ _ hk
  -- the call sleeps, or returns -1, only where the editor's read waits for more
  have hwait : o ≠ .ret → done = false := by
    intro ho
    cases done
    · rfl
    · exact absurd h₃ ho
  refine ⟨h₁, ?reader, ?distinct, ?returned, ?ok, ?chunks, ?bytes⟩
  case reader =>
    -- process `p`'s slot holds the read again only when it sleeps
    intro q rd' hq
    rcases update_ite_eq_some hq with ⟨-, ho, rfl⟩ | ⟨hqp, hq⟩
    · have hd := hwait (by rw [ho]; decide)
      refine ⟨hself.symm, hid, ?_, ?_, ?_⟩
      · simp only [List.length_append]
        omega
      · simp [hnl, t₅ hd]
      · simp [hD, t₃]
    · obtain ⟨e₁, e₂, e₃⟩ := h.reader q rd' hq
      exact ⟨by rw [hkeep _ (Ne.symm (hother q rd' hq hqp)), e₁], e₂, e₃⟩
  case distinct =>
    intro q₁ q₂ rd₁ rd₂ hq₁ hq₂ he
    rcases update_ite_eq_some hq₁ with ⟨e₁, -, rfl⟩ | ⟨e₁, hq₁⟩ <;>
      rcases update_ite_eq_some hq₂ with ⟨e₂, -, rfl⟩ | ⟨e₂, hq₂⟩
    · rw [e₁, e₂]
    · exact absurd he.symm (hother q₂ rd₂ hq₂ e₂)
    · exact absurd he (hother q₁ rd₁ hq₁ e₁)
    · exact h.distinct q₁ q₂ rd₁ rd₂ hq₁ hq₂ he
  case returned =>
    intro r hr
    rcases mem_ite_append hr with hr | ⟨ho, rfl⟩
    · obtain ⟨e₁, e₂, e₃⟩ := h.returned r hr
      refine ⟨by rw [hkeep _ (Ne.symm (hret r hr)), e₁], e₂, fun q rd' hq => ?_⟩
      rcases update_ite_eq_some hq with ⟨-, -, rfl⟩ | ⟨-, hq⟩
      · exact Ne.symm (hret r hr)
      · exact e₃ q rd' hq
    · refine ⟨hself.symm, hid, fun q rd' hq => ?_⟩
      rcases update_ite_eq_some hq with ⟨-, hs, -⟩ | ⟨hqp, hq⟩
      · exact absurd hs ho
      · exact hother q rd' hq hqp
  case ok =>
    intro r hr
    rcases mem_ite_append hr with hr | ⟨ho, rfl⟩
    · exact h.ok r hr
    refine ⟨by simp only [List.length_append]; omega, not_mem_dropLast_append hnl t₄, by simp [hD, t₃], ?_⟩
    split_ifs with hk
    · exact .inr rfl
    · -- `target - n` is what the loop copied, `dst` having `target - n` bytes
      left
      show ((rd.target - n' : Nat) : Int) = ((rd.dst ++ b).length : Nat)
      rw [List.length_append, show rd.target - n' = rd.dst.length + b.length by omega]
  case chunks =>
    intro c hc
    rcases List.mem_append.1 hc with hc | hc
    · exact h.chunks c hc
    · rw [List.mem_singleton.1 hc]
      exact hid
  case bytes =>
    rw [← h.bytes, ← t₁]
    simp

theorem Inv.next {ev : Event} (h : Inv s) (hn : s.next ev = some s') : Inv s' := by
  cases ev with
  | intr keys =>
    obtain rfl := Option.some.inj hn.symm
    exact h.intr keys
  | read p n =>
    simp only [State.next] at hn
    split_ifs at hn
    obtain rfl := Option.some.inj hn.symm
    exact h.call.resume (taken_of_lt h.chunks).symm (Nat.lt_succ_self _) (by simp) (by simp) (by simp)
      (fun q rd' hq _ => Nat.ne_of_lt (h.reader q rd' hq).2.1) (fun r hr => Nat.ne_of_lt (h.returned r hr).2.1)
  | wake p =>
    simp only [State.next] at hn
    obtain ⟨rd, hrd, rfl⟩ := Option.map_eq_some_iff.1 hn
    obtain ⟨e₁, e₂, e₃, e₄, e₅⟩ := h.reader p rd hrd
    exact h.resume e₁ e₂ e₃ e₄ e₅ (fun q rd' hq hqp he => hqp (h.distinct q p rd' rd hq hrd he))
      (fun r hr => Ne.symm ((h.returned r hr).2.2 p rd hrd))
  | kill p =>
    obtain rfl := Option.some.inj hn.symm
    exact h.kill p

theorem Reachable.inv (h : s.Reachable) : Inv s :=
  Machine.Reachable.rec_inv Inv (fun _ => Inv.init) (fun _ _ hs ⟨_, hn⟩ => hs.next hn) h

theorem Reachable.of_run {evs : List Event} (hs : s.Reachable) (h : Machine.run next s evs = some s') :
    s'.Reachable :=
  Machine.Reachable.of_run (fun _ l _ h => ⟨l, h⟩) hs h

/-- The console as the kernel starts it: a zeroed `input`, and no process killed. -/
def zero : State := ⟨⟨fun _ => 0, 0, 0, 0⟩, fun _ => none, fun _ => false, 0, ⟨[], [], []⟩, [], []⟩

theorem zero_reachable : zero.Reachable := .init ⟨rfl, rfl, fun _ => rfl, rfl, rfl, rfl⟩

theorem exists_run_of_check {evs : List Event} {P : State → Prop} [DecidablePred P]
    (h : (Machine.run next zero evs).map (fun s => decide (P s)) = some true) :
    ∃ s, Machine.run next zero evs = some s ∧ s.Reachable ∧ P s := by
  obtain ⟨s, hrun, hP⟩ := Option.map_eq_some_iff.1 h
  exact ⟨s, hrun, zero_reachable.of_run hrun, of_decide_eq_true hP⟩

/-- Three runs where the bytes the reads return, put together, are not the text committed, with
nothing left to read. ^P runs procdump and puts nothing in the buffer: after ^P and a newline, a
read returns the newline alone. A read killed in its sleep returns -1, and the 128 bytes of a full
buffer it had copied are returned to no one. Two readers take turns: the one that sleeps on a full
buffer gets the next line after the other has had its own. -/
theorem reads_miss_committed_text :
    (∃ s, Machine.run next zero [.intr [C 'P', ch '\n'], .read 0 128] = some s ∧ s.Reachable ∧
      s.returned = [⟨0, 128, 1, [ch '\n']⟩] ∧ s.input.r = s.input.w ∧ s.input.w = s.input.e) ∧
    (∃ s, Machine.run next zero [.intr (List.replicate 128 (ch 'a')), .read 0 200, .kill 0, .wake 0] = some s ∧
      s.Reachable ∧ s.editor.text = List.replicate 128 (ch 'a') ∧
      s.returned = [⟨0, 200, -1, List.replicate 128 (ch 'a')⟩] ∧ s.readers 0 = none ∧
      s.input.r = s.input.w ∧ s.input.w = s.input.e) ∧
    (∃ s, Machine.run next zero [.intr (List.replicate 128 (ch 'a')), .read 0 200, .intr [ch 'b', ch '\n'],
        .read 1 10, .intr [ch 'c', ch '\n'], .wake 0] = some s ∧ s.Reachable ∧
      s.editor.text = List.replicate 128 (ch 'a') ++ [ch 'b', ch '\n', ch 'c', ch '\n'] ∧
      s.returned = [⟨1, 10, 2, [ch 'b', ch '\n']⟩, ⟨0, 200, 130, List.replicate 128 (ch 'a') ++ [ch 'c', ch '\n']⟩] ∧
      s.readers 0 = none ∧ s.input.r = s.input.w ∧ s.input.w = s.input.e) :=
  ⟨exists_run_of_check (by decide +kernel), exists_run_of_check (by decide +kernel),
    exists_run_of_check (by decide +kernel)⟩

end State

open State

/-- In every state the console reaches, from any equal indices and over any interleaving of key
codes, reads by any processes, and kills: `r`, `w` and `e` are in order and at most `INPUT_BUF`
apart as 32-bit differences; the ring holds the line editor's committed and pending text; the bytes
the passes of the reads took, in order, then the committed bytes not yet read, are all the bytes the
editor committed, the ^D that end reads taken out; and each read holds (asleep) or returned exactly
the bytes its own passes took, at most its `n`, a newline only as its last byte and no ^D, the value
it returned being their number or -1. -/
theorem console_input_exact {s : State} (hs : s.Reachable) :
    (s.input.w - s.input.r).toNat ≤ (s.input.e - s.input.r).toNat ∧
    (s.input.e - s.input.r).toNat ≤ INPUT_BUF ∧
    s.input.committed = s.editor.committed ∧ s.input.pending = s.editor.pending ∧
    (s.chunks.map Prod.snd).flatten ++ Editor.bytes s.editor.committed = Editor.bytes s.editor.text ∧
    (∀ p rd, s.readers p = some rd → rd.dst = taken s.chunks rd.id ∧ rd.dst.length + rd.n = rd.target ∧
      ch '\n' ∉ rd.dst ∧ C 'D' ∉ rd.dst) ∧
    ∀ r ∈ s.returned, r.dst = taken s.chunks r.id ∧ r.dst.length ≤ r.target ∧ ch '\n' ∉ r.dst.dropLast ∧
      C 'D' ∉ r.dst ∧ (r.value = r.dst.length ∨ r.value = -1) := by
  have h := hs.inv
  refine ⟨h.sim.inv.w_le, h.sim.inv.e_le, h.sim.committed, h.sim.pending, h.bytes, fun p rd hrd => ?_,
    fun r hr => ?_⟩
  · obtain ⟨e₁, -, e₃⟩ := h.reader p rd hrd
    exact ⟨e₁, e₃⟩
  · exact ⟨(h.returned r hr).1, h.ok r hr⟩

/-- Two readers and a kill: one read sleeps on a full buffer, another reads a line, and the first,
killed, returns -1. -/
theorem console_input_exact_two_readers :
    ∃ s, Machine.run next zero [.intr (List.replicate 128 (ch 'a')), .read 0 200, .intr [ch 'b', ch '\n'],
        .read 1 10, .kill 0, .wake 0] = some s ∧ s.Reachable ∧
      (s.input.w - s.input.r).toNat ≤ (s.input.e - s.input.r).toNat ∧
      (s.input.e - s.input.r).toNat ≤ INPUT_BUF ∧
      s.input.committed = s.editor.committed ∧ s.input.pending = s.editor.pending ∧
      (s.chunks.map Prod.snd).flatten ++ Editor.bytes s.editor.committed = Editor.bytes s.editor.text ∧
      (∀ p rd, s.readers p = some rd → rd.dst = taken s.chunks rd.id ∧ rd.dst.length + rd.n = rd.target ∧
        ch '\n' ∉ rd.dst ∧ C 'D' ∉ rd.dst) ∧
      ∀ r ∈ s.returned, r.dst = taken s.chunks r.id ∧ r.dst.length ≤ r.target ∧ ch '\n' ∉ r.dst.dropLast ∧
        C 'D' ∉ r.dst ∧ (r.value = r.dst.length ∨ r.value = -1) := by
  obtain ⟨s, hrun⟩ : ∃ s, Machine.run next zero [.intr (List.replicate 128 (ch 'a')), .read 0 200,
      .intr [ch 'b', ch '\n'], .read 1 10, .kill 0, .wake 0] = some s :=
    Option.isSome_iff_exists.1 (by decide +kernel)
  have hs := zero_reachable.of_run hrun
  exact ⟨s, hrun, hs, console_input_exact hs⟩

/-- The indices wrap past `2^32` in the middle of a line. -/
example :
    (Machine.run next ⟨⟨fun _ => 0, 2 ^ 32 - 1, 2 ^ 32 - 1, 2 ^ 32 - 1⟩, fun _ => none, fun _ => false, 0,
      ⟨[], [], []⟩, [], []⟩ [.intr [ch 'a', ch 'b', ch '\r'], .read 0 10]).map State.returned =
      some [⟨0, 10, 3, [ch 'a', ch 'b', ch '\n']⟩] := by
  rfl

end Xv6.Console
