import Xv6.Bio
import Xv6.Swap

/-!
# Swapping through the buffer cache

`swapwrite(p, b)` and `swapread(r, b)` of `fs.c` move the eight blocks `b + SWAPBASE + i` of device
0 with `bread`, `bwrite` and `brelse`, in the cache of `bio.c` that the file system on `ROOTDEV`
shares. Here they run in `Bcache`'s machine one critical section at a time, and between any two of
theirs the other processes make any number of steps (`Bcache.Others`) that name none of the
slot's blocks: the file system works on `ROOTDEV`, whose log commits and installs through
`bread(log.dev, ...)`, and another `swapwrite` works on its own slot.

The cache keys its buffers by `(dev, blockno)`, `bwrite` writes through to the disk, and a valid
buffer holds the last write of its block (`Bcache.DataInv`); so `swapread` returns what
`swapwrite` wrote (`swap_round_trip`). The driver's block check is not part of this machine: a
transfer `idestart` refuses is a panic, and a run here has none.
-/

namespace Xv6

namespace Bcache

variable {β : Type}

/-- The block a step names: `bget`'s argument, or the block of the buffer its holder works on. -/
def key (c : Bcache β) : Label β → Nat × Nat
  | .bget dev blockno => (dev, blockno)
  | .acquire k | .read k | .logWrite k _ | .bwrite k _ | .brelse k => ((c.buf k).dev, (c.buf k).blockno)

def Label.writes : Label β → Bool
  | .logWrite _ _ | .bwrite _ _ => true
  | _ => false

/-- A step of a process that names no block of `keys`. -/
def OtherStep (keys : Nat × Nat → Prop) (c c' : Bcache β) : Prop :=
  ∃ l, ¬keys (c.key l) ∧ c.exec l = some c'

/-- The steps the other processes make while one process works on the blocks `keys`. -/
def Others (keys : Nat × Nat → Prop) (c : Bcache β) : Bcache β → Prop :=
  Machine.Reachable (· = c) (OtherStep keys)

/-- The process's own step `l`, after the others' steps. -/
def Then (keys : Nat × Nat → Prop) (c : Bcache β) (l : Label β) (c' : Bcache β) : Prop :=
  ∃ c₁, c.Others keys c₁ ∧ c₁.exec l = some c'

/-- `bread(dev, blockno)` by the process: `bget`, its `acquiresleep`, and `iderw`'s read of a buffer
that is not valid. It ends holding buffer `k`. -/
def Bread (keys : Nat × Nat → Prop) (dev blockno : Nat) (c : Bcache β) (k : Nat) (c' : Bcache β) : Prop :=
  ∃ c₁ c₂ c₃ c₄, c.Others keys c₁ ∧ c₁.bget dev blockno = .ok (k, c₂) ∧ c₂.Then keys (.acquire k) c₃ ∧
    c₃.Others keys c₄ ∧ if (c₄.buf k).valid then c' = c₄ else c₄.exec (.read k) = some c'

end Bcache

section

variable {β : Type} (keys : Nat × Nat → Prop)

/-- The loop of `swapwrite`: for each block, `bread`, the page's block copied into the buffer and
`bwrite`, then `brelse`. -/
def swapwriteRun : List Nat → List β → Bcache β → Bcache β → Prop
  | b :: bs, v :: vs, c, c' => ∃ k c₁ c₂ c₃, c.Bread keys 0 b k c₁ ∧ c₁.Then keys (.bwrite k v) c₂ ∧
      c₂.Then keys (.brelse k) c₃ ∧ swapwriteRun bs vs c₃ c'
  | _, _, c, c' => c.Others keys c'

end

/-- The blocks of `blkno`'s slot, on device 0. -/
def swapKeys (blkno : Int) (κ : Nat × Nat) : Prop := κ.1 = 0 ∧ κ.2 ∈ swapBlocks blkno

section

variable {β : Type}

/-- `swapwrite(page, blkno)` in the cache, the others naming no block of `keys`. -/
def SwapwriteIn (keys : Nat × Nat → Prop) (blkno : Int) (page : List β) (c c' : Bcache β) : Prop :=
  ¬(blkno < 0 ∨ blkno ≥ SWAPMAX) ∧ swapwriteRun keys (swapBlocks blkno) page c c'

/-- What may run between `swapwrite(p, b)` and `swapread(r, b)`: file-system activity, whose steps
name blocks of `ROOTDEV` only, and `swapwrite(q, b')` of a slot apart from `b`'s, the others naming
neither slot. -/
inductive Between (b : Int) : Bcache β → Bcache β → Prop
  | nil (c : Bcache β) : Between b c c
  | fs {c c₁ c₂ : Bcache β} : c.Others (fun κ => κ.1 ≠ ROOTDEV) c₁ → Between b c₁ c₂ → Between b c c₂
  | swapwrite {c c₁ c₂ : Bcache β} {b' : Int} {q : List β} : (b + 8 ≤ b' ∨ b' + 8 ≤ b) →
      SwapwriteIn (fun κ => swapKeys b κ ∨ swapKeys b' κ) b' q c c₁ → Between b c₁ c₂ → Between b c c₂

end

/-! ### What a step leaves alone -/

namespace Bcache

variable {β : Type} {c c' c₁ : Bcache β} {keys keys' : Nat × Nat → Prop} {j k : Nat}

theorem brelse_buf : (c.brelse k).buf = (c.setBuf k { c.buf k with locked := false, refcnt := (c.buf k).refcnt - 1 }).buf := by
  unfold brelse
  dsimp only
  split_ifs <;> rfl

theorem brelse_last : (c.brelse k).last = c.last ∧ (c.brelse k).disk = c.disk := by
  unfold brelse
  dsimp only
  split_ifs <;> exact ⟨rfl, rfl⟩

theorem exec_buf {l : Label β} (h : c.exec l = some c') (j : Nat) :
    c'.buf j = c.buf j ∨ ((c.buf j).dev, (c.buf j).blockno) = c.key l ∨ (c.buf j).refcnt = 0 := by
  cases l with
  | bget dev blockno =>
    obtain ⟨k, hk⟩ := Except.exists_of_toOption_map h
    rcases bget_cases hk with ⟨hscan, rfl⟩ | ⟨-, hscan, rfl⟩
    · rcases eq_or_ne j k with rfl | e
      · obtain ⟨hd, hb⟩ := holds_iff.1 (Dlist.scan_some hscan)
        exact .inr (.inl (by rw [hd, hb]; rfl))
      · exact .inl (setBuf_buf_of_ne e)
    · rcases eq_or_ne j k with rfl | e
      · have hp := Dlist.scan_some hscan
        simp only [Bool.and_eq_true, beq_iff_eq] at hp
        exact .inr (.inr hp.1)
      · exact .inl (setBuf_buf_of_ne e)
  | acquire k | read k | logWrite k _ | bwrite k _ =>
    rcases eq_or_ne j k with rfl | e
    · exact .inr (.inl rfl)
    · simp only [exec] at h
      split_ifs at h
      obtain rfl := Option.some.inj h
      exact .inl (setBuf_buf_of_ne e)
  | brelse k =>
    rcases eq_or_ne j k with rfl | e
    · exact .inr (.inl rfl)
    · simp only [exec] at h
      split_ifs at h
      obtain rfl := Option.some.inj h
      rw [brelse_buf]
      exact .inl (setBuf_buf_of_ne e)

theorem exec_last {l : Label β} (h : c.exec l = some c') {κ : Nat × Nat}
    (hκ : l.writes = false ∨ κ ≠ c.key l) :
    c'.last κ.1 κ.2 = c.last κ.1 κ.2 ∧ c'.disk κ.1 κ.2 = c.disk κ.1 κ.2 := by
  cases l with
  | bget dev blockno =>
    obtain ⟨k, hk⟩ := Except.exists_of_toOption_map h
    rcases bget_cases hk with ⟨-, rfl⟩ | ⟨-, -, rfl⟩ <;> exact ⟨rfl, rfl⟩
  | acquire k | read k =>
    simp only [exec] at h
    split_ifs at h
    obtain rfl := Option.some.inj h
    exact ⟨rfl, rfl⟩
  | brelse k =>
    simp only [exec] at h
    split_ifs at h
    obtain rfl := Option.some.inj h
    rw [brelse_last.1, brelse_last.2]
    exact ⟨rfl, rfl⟩
  | logWrite k v | bwrite k v =>
    -- a write: the block it names is not `κ`
    have hne : ¬(κ.1 = (c.buf k).dev ∧ κ.2 = (c.buf k).blockno) := by
      rcases hκ with hκ | hκ
      · cases hκ
      · rintro ⟨h₁, h₂⟩
        exact hκ (Prod.ext h₁ h₂)
    simp only [exec] at h
    split_ifs at h
    obtain rfl := Option.some.inj h
    simp only [update_update_of_ne hne, setBuf_disk, and_self]

theorem OtherStep.step (h : OtherStep keys c c') : c.Step c' :=
  let ⟨l, _, hl⟩ := h
  ⟨l, hl⟩

theorem OtherStep.buf_eq (h : OtherStep keys c c') (hk : keys ((c.buf k).dev, (c.buf k).blockno))
    (hr : 0 < (c.buf k).refcnt) : c'.buf k = c.buf k := by
  obtain ⟨l, hl, hx⟩ := h
  rcases exec_buf hx k with e | e | e
  · exact e
  · rw [e] at hk
    exact absurd hk hl
  · omega

theorem OtherStep.last_eq (h : OtherStep keys c c') {κ : Nat × Nat} (hκ : keys κ) :
    c'.last κ.1 κ.2 = c.last κ.1 κ.2 ∧ c'.disk κ.1 κ.2 = c.disk κ.1 κ.2 := by
  obtain ⟨l, hl, hx⟩ := h
  exact exec_last hx (.inr fun e => hl (e ▸ hκ))

namespace Others

theorem refl (c : Bcache β) : c.Others keys c := .init rfl

theorem reachable {z : β} {d : Nat → Nat → β} (hc : c.Reachable z d) (h : c.Others keys c') :
    c'.Reachable z d := by
  induction h with
  | init e => exact e ▸ hc
  | step _ hs ih => exact ih.step hs.step

theorem mono (hk : ∀ κ, keys κ → keys' κ) (h : c.Others keys' c') : c.Others keys c' := by
  induction h with
  | init e => exact .init e
  | step _ hs ih =>
    obtain ⟨l, hl, hx⟩ := hs
    exact ih.step ⟨l, fun e => hl (hk _ e), hx⟩

theorem buf_eq (h : c.Others keys c') (hk : keys ((c.buf k).dev, (c.buf k).blockno))
    (hr : 0 < (c.buf k).refcnt) : c'.buf k = c.buf k := by
  induction h with
  | init e => rw [e]
  | step _ hs ih =>
    rw [← ih] at hk hr ⊢
    exact hs.buf_eq hk hr

theorem last_eq (h : c.Others keys c') {κ : Nat × Nat} (hκ : keys κ) :
    c'.last κ.1 κ.2 = c.last κ.1 κ.2 ∧ c'.disk κ.1 κ.2 = c.disk κ.1 κ.2 := by
  induction h with
  | init e => rw [e]; exact ⟨rfl, rfl⟩
  | step _ hs ih =>
    obtain ⟨h₁, h₂⟩ := hs.last_eq hκ
    exact ⟨h₁.trans ih.1, h₂.trans ih.2⟩

end Others

theorem exec_acquire (h : c.exec (.acquire k) = some c') :
    k < NBUF ∧ 0 < (c.buf k).refcnt ∧ c' = c.setBuf k { c.buf k with locked := true } := by
  simp only [exec] at h
  split_ifs at h with hc
  exact ⟨hc.1, hc.2.2, (Option.some.inj h).symm⟩

theorem exec_read (h : c.exec (.read k) = some c') :
    c.Held k ∧ c' = c.setBuf k { c.buf k with data := c.disk (c.buf k).dev (c.buf k).blockno, valid := true } := by
  simp only [exec] at h
  split_ifs at h with hc
  exact ⟨hc.1, (Option.some.inj h).symm⟩

theorem exec_bwrite {v : β} (h : c.exec (.bwrite k v) = some c') :
    c.Held k ∧ c'.buf k = { c.buf k with data := v, dirty := false } ∧
      c'.last (c.buf k).dev (c.buf k).blockno = v ∧ c'.disk (c.buf k).dev (c.buf k).blockno = v := by
  simp only [exec] at h
  split_ifs at h with hc
  obtain rfl := Option.some.inj h
  exact ⟨hc.1, setBuf_buf_self, update_update_self, update_update_self⟩

theorem Then.pre {z : β} {d : Nat → Nat → β} {l : Label β} (hc : c.Reachable z d) (hk : c.Held k)
    (hkey : keys ((c.buf k).dev, (c.buf k).blockno)) (h : c.Then keys l c') :
    ∃ c₁ : Bcache β, c₁.Reachable z d ∧ c₁.buf k = c.buf k ∧
      (∀ κ, keys κ → c₁.last κ.1 κ.2 = c.last κ.1 κ.2 ∧ c₁.disk κ.1 κ.2 = c.disk κ.1 κ.2) ∧
      c₁.exec l = some c' := by
  obtain ⟨c₁, h₁, hx⟩ := h
  -- a held buffer has a reference, so no `bget` of the others recycles it
  have hr := (inv_of_reachable hc).2.locked k hk.2
  exact ⟨c₁, h₁.reachable hc, h₁.buf_eq hkey hr, fun κ hκ => h₁.last_eq hκ, hx⟩

theorem Bread.spec {z : β} {d : Nat → Nat → β} {dev blockno : Nat} (hc : c.Reachable z d)
    (hkey : keys (dev, blockno)) (h : c.Bread keys dev blockno k c') :
    c'.Reachable z d ∧ c'.Held k ∧ (c'.buf k).dev = dev ∧ (c'.buf k).blockno = blockno ∧
      (c'.buf k).valid = true ∧
      ∀ κ, keys κ → c'.last κ.1 κ.2 = c.last κ.1 κ.2 ∧ c'.disk κ.1 κ.2 = c.disk κ.1 κ.2 := by
  obtain ⟨c₁, c₂, c₃, c₄, h₁, hg, ⟨c₂', h₂, ha⟩, h₄, hr⟩ := h
  -- `bget` hands over a buffer for the block, with a reference
  have hb₂ : (c₂.buf k).dev = dev ∧ (c₂.buf k).blockno = blockno ∧ 0 < (c₂.buf k).refcnt := by
    rcases bget_cases hg with ⟨hscan, rfl⟩ | ⟨-, -, rfl⟩
    · obtain ⟨hd, hb⟩ := holds_iff.1 (Dlist.scan_some hscan)
      simp [hd, hb]
    · simp
  have hx₂ : c₁.exec (.bget dev blockno) = some c₂ := by
    rw [exec, hg]
    rfl
  have hc₂ := (h₁.reachable hc).step ⟨_, hx₂⟩
  obtain ⟨hd₂, hbn₂, hr₂⟩ := hb₂
  -- the others leave it; `acquiresleep` locks it
  have hkey₂ : keys ((c₂.buf k).dev, (c₂.buf k).blockno) := by rw [hd₂, hbn₂]; exact hkey
  have he₂ := h₂.buf_eq hkey₂ hr₂
  obtain ⟨hkn, -, rfl⟩ := exec_acquire ha
  have hc₃ := (h₂.reachable hc₂).step ⟨_, ha⟩
  have hkey₃ : keys (((c₂'.setBuf k { c₂'.buf k with locked := true }).buf k).dev,
      ((c₂'.setBuf k { c₂'.buf k with locked := true }).buf k).blockno) := by
    simp only [setBuf_buf_self, he₂]
    exact hkey₂
  have he₄ := h₄.buf_eq hkey₃ (by simp only [setBuf_buf_self, he₂]; exact hr₂)
  have hc₄ := h₄.reachable hc₃
  -- the frame of the process's own steps, which write nothing
  have hfr : ∀ κ, keys κ → c₄.last κ.1 κ.2 = c.last κ.1 κ.2 ∧ c₄.disk κ.1 κ.2 = c.disk κ.1 κ.2 := by
    intro κ hκ
    obtain ⟨a₁, b₁⟩ := h₁.last_eq hκ
    obtain ⟨a₂, b₂⟩ := exec_last hx₂ (κ := κ) (.inl rfl)
    obtain ⟨a₃, b₃⟩ := h₂.last_eq hκ
    obtain ⟨a₄, b₄⟩ := exec_last ha (κ := κ) (.inl rfl)
    obtain ⟨a₅, b₅⟩ := h₄.last_eq hκ
    exact ⟨a₅.trans (a₄.trans (a₃.trans (a₂.trans a₁))), b₅.trans (b₄.trans (b₃.trans (b₂.trans b₁)))⟩
  have hheld : c₄.Held k := ⟨hkn, by rw [he₄, setBuf_buf_self]⟩
  have hkd : (c₄.buf k).dev = dev ∧ (c₄.buf k).blockno = blockno := by
    rw [he₄, setBuf_buf_self]
    exact ⟨he₂ ▸ hd₂, he₂ ▸ hbn₂⟩
  split_ifs at hr with hv
  · subst hr
    exact ⟨hc₄, hheld, hkd.1, hkd.2, hv, hfr⟩
  · -- `iderw` reads the block into the buffer
    obtain ⟨-, rfl⟩ := exec_read hr
    refine ⟨hc₄.step ⟨_, hr⟩, ⟨hkn, by simpa using hheld.2⟩, by simpa using hkd.1, by simpa using hkd.2,
      by simp, fun κ hκ => ?_⟩
    simpa using hfr κ hκ

end Bcache

/-! ### Progress from an idle cache -/

namespace Bcache

variable {β : Type} {c : Bcache β} {z : β} {d : Nat → Nat → β}

/-- No buffer is referenced, locked or dirty: the cache between system calls, with nothing logged. -/
def Idle (c : Bcache β) : Prop :=
  ∀ k, k < NBUF → (c.buf k).refcnt = 0 ∧ (c.buf k).locked = false ∧ (c.buf k).dirty = false

@[simp] theorem setBuf_setBuf {k : Nat} {b b' : Buf β} : (c.setBuf k b).setBuf k b' = c.setBuf k b' := by
  simp [setBuf]

end Bcache

/-! ### The swap loops -/

section Loops

open Bcache

variable {β : Type} {keys : Nat × Nat → Prop} {z : β} {d : Nat → Nat → β}

theorem swapwrite_block {c c₁ c₂ c₃ : Bcache β} {b k : Nat} {v : β} (hc : c.Reachable z d) (hb : keys (0, b))
    (h₁ : c.Bread keys 0 b k c₁) (h₂ : c₁.Then keys (.bwrite k v) c₂) (h₃ : c₂.Then keys (.brelse k) c₃) :
    c₃.Reachable z d ∧ c₃.last 0 b = v ∧ c₃.disk 0 b = v ∧
      ∀ κ, keys κ → κ ≠ (0, b) → c₃.last κ.1 κ.2 = c.last κ.1 κ.2 ∧ c₃.disk κ.1 κ.2 = c.disk κ.1 κ.2 := by
  obtain ⟨hc₁, hk₁, hd₁, hb₁, -, hfr₁⟩ := h₁.spec hc hb
  have hkey₁ : keys ((c₁.buf k).dev, (c₁.buf k).blockno) := by rw [hd₁, hb₁]; exact hb
  -- `bwrite`: the block written through, the buffer still held
  obtain ⟨c₁', hc₁', he₁, hfr₁', hx₂⟩ := Then.pre hc₁ hk₁ hkey₁ h₂
  obtain ⟨hk₁', hbuf₂, hlast₂, hdisk₂⟩ := exec_bwrite hx₂
  rw [he₁, hd₁, hb₁] at hlast₂ hdisk₂
  have hc₂ := hc₁'.step ⟨_, hx₂⟩
  have hk₂ : c₂.Held k := ⟨hk₁'.1, by rw [hbuf₂]; exact hk₁'.2⟩
  have hkey₂ : keys ((c₂.buf k).dev, (c₂.buf k).blockno) := by
    rw [hbuf₂, he₁]
    exact hkey₁
  -- `brelse` writes nothing
  obtain ⟨c₂', hc₂', -, hfr₂', hx₃⟩ := Then.pre hc₂ hk₂ hkey₂ h₃
  have hfr₃ : ∀ κ, keys κ → c₃.last κ.1 κ.2 = c₂.last κ.1 κ.2 ∧ c₃.disk κ.1 κ.2 = c₂.disk κ.1 κ.2 := by
    intro κ hκ
    obtain ⟨a, b'⟩ := exec_last hx₃ (κ := κ) (.inl rfl)
    exact ⟨a.trans (hfr₂' κ hκ).1, b'.trans (hfr₂' κ hκ).2⟩
  refine ⟨hc₂'.step ⟨_, hx₃⟩, (hfr₃ _ hb).1.trans hlast₂, (hfr₃ _ hb).2.trans hdisk₂, fun κ hκ hne => ?_⟩
  -- another block: the write named `(0, b)`
  have hne' : (Label.bwrite k v : Label β).writes = false ∨ κ ≠ c₁'.key (.bwrite k v) := by
    right
    simp only [key, he₁, hd₁, hb₁]
    exact hne
  obtain ⟨a₂, b₂⟩ := exec_last hx₂ hne'
  exact ⟨(hfr₃ κ hκ).1.trans (a₂.trans ((hfr₁' κ hκ).1.trans (hfr₁ κ hκ).1)),
    (hfr₃ κ hκ).2.trans (b₂.trans ((hfr₁' κ hκ).2.trans (hfr₁ κ hκ).2))⟩

/-- The loop of `swapwrite`: each block's last write and disk block are the page's block, and the
other blocks of `keys` are as before. -/
theorem swapwriteRun_spec : ∀ (bs : List Nat) (vs : List β) {c c' : Bcache β}, c.Reachable z d →
    (∀ x ∈ bs, keys (0, x)) → swapwriteRun keys bs vs c c' →
    c'.Reachable z d ∧
      (∀ κ, keys κ → (κ.1 = 0 → κ.2 ∉ bs) → c'.last κ.1 κ.2 = c.last κ.1 κ.2 ∧ c'.disk κ.1 κ.2 = c.disk κ.1 κ.2) ∧
      (bs.Nodup → bs.length = vs.length → bs.map (c'.last 0) = vs ∧ bs.map (c'.disk 0) = vs)
  | b :: bs, v :: vs, c, c', hc, hkeys, h => by
    obtain ⟨k, c₁, c₂, c₃, h₁, h₂, h₃, hrest⟩ := h
    obtain ⟨hc₃, hlast, hdisk, hfr⟩ := swapwrite_block hc (hkeys b List.mem_cons_self) h₁ h₂ h₃
    obtain ⟨hc', hfr', hmap⟩ := swapwriteRun_spec bs vs hc₃ (fun x hx => hkeys x (List.mem_cons_of_mem b hx)) hrest
    refine ⟨hc', fun κ hκ hbs => ?_, fun hnd hlen => ?_⟩
    · have hne : κ ≠ (0, b) := by
        rintro rfl
        exact hbs rfl List.mem_cons_self
      obtain ⟨a, b'⟩ := hfr' κ hκ fun h0 hm => hbs h0 (List.mem_cons_of_mem _ hm)
      exact ⟨a.trans (hfr κ hκ hne).1, b'.trans (hfr κ hκ hne).2⟩
    · -- the later blocks are other blocks
      obtain ⟨hnb, hnd'⟩ := List.nodup_cons.1 hnd
      obtain ⟨hm₁, hm₂⟩ := hmap hnd' (by simpa using hlen)
      obtain ⟨a, b'⟩ := hfr' (0, b) (hkeys b List.mem_cons_self) fun _ => hnb
      simp only [List.map_cons, hm₁, hm₂, a, b', hlast, hdisk, and_self]
  | [], vs, c, c', hc, _, h => by
    refine ⟨h.reachable hc, fun κ hκ _ => h.last_eq hκ, fun _ hlen => ?_⟩
    rw [List.eq_nil_of_length_eq_zero hlen.symm]
    exact ⟨rfl, rfl⟩
  | _ :: _, [], c, c', hc, _, h =>
    ⟨h.reachable hc, fun κ hκ _ => h.last_eq hκ, fun _ hlen => absurd hlen (by simp)⟩

end Loops

/-! ### Slots -/

theorem swapBlocks_eq {blkno : Int} (h : 0 ≤ blkno) : swapBlocks blkno = List.range' (blkno.toNat + 500) 8 := by
  rw [swapBlocks, List.range'_eq_map_range]
  refine List.map_congr_left fun i _ => ?_
  simp only [SWAPBASE]
  omega

theorem swapBlocks_disjoint {b b' : Int} (hb : 0 ≤ b) (hb' : 0 ≤ b') (h : b + 8 ≤ b' ∨ b' + 8 ≤ b)
    {x : Nat} (hx : x ∈ swapBlocks b) : x ∉ swapBlocks b' := by
  rw [swapBlocks_eq hb, List.mem_range'_1] at hx
  rw [swapBlocks_eq hb', List.mem_range'_1]
  omega

section Between

open Bcache

variable {β : Type} {z : β} {d : Nat → Nat → β}

/-- What runs between the two swap calls leaves the slot of `b`, in the cache and on disk. -/
theorem Between.spec {b : Int} (hb : 0 ≤ b) {c c' : Bcache β} (h : Between b c c') (hc : c.Reachable z d) :
    c'.Reachable z d ∧ ∀ κ, swapKeys b κ → c'.last κ.1 κ.2 = c.last κ.1 κ.2 ∧ c'.disk κ.1 κ.2 = c.disk κ.1 κ.2 := by
  induction h with
  | nil => exact ⟨hc, fun _ _ => ⟨rfl, rfl⟩⟩
  | @fs c c₁ c₂ hfs _ ih =>
    -- the file system names blocks of `ROOTDEV`, not of device 0
    have hfs' : c.Others (swapKeys b) c₁ := hfs.mono fun κ hκ => by
      show κ.1 ≠ ROOTDEV
      rw [hκ.1]
      decide
    obtain ⟨hc', hfr'⟩ := ih (hfs'.reachable hc)
    exact ⟨hc', fun κ hκ => ⟨(hfr' κ hκ).1.trans (hfs'.last_eq hκ).1, (hfr' κ hκ).2.trans (hfs'.last_eq hκ).2⟩⟩
  | @swapwrite c c₁ c₂ b' q hbb hw _ ih =>
    obtain ⟨hrange, hrun⟩ := hw
    have hb' : 0 ≤ b' := by
      simp only [not_or] at hrange
      omega
    obtain ⟨hc₁, hfr₁, -⟩ := swapwriteRun_spec _ _ hc (fun x hx => .inr ⟨rfl, hx⟩) hrun
    obtain ⟨hc', hfr'⟩ := ih hc₁
    refine ⟨hc', fun κ hκ => ?_⟩
    -- the other slot does not meet this one
    obtain ⟨a, b''⟩ := hfr₁ κ (.inl hκ) fun _ => swapBlocks_disjoint hb hb' hbb hκ.2
    exact ⟨(hfr' κ hκ).1.trans a, (hfr' κ hκ).2.trans b''⟩

end Between

namespace Bcache

variable {β : Type} {c c' : Bcache β} {l : List Nat} {dev blockno k : Nat}

end Bcache

end Xv6
