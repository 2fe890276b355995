/-
Code that can return an error or panic.

A `Fallible` is a value, an error with its message, or a fault: a slice outside its
bounds or a sum that overflows.  A `Cursor` reads a byte sequence piece by piece;
its offsets are machine words, so that adding a length to one can fault.
-/
import Riets.Bytes

inductive Fallible (α : Type) where
  | ok (a : α)
  | err (message : String)
  | fault
  deriving DecidableEq

namespace Fallible

open List

variable {α β : Type}

protected def bind (o : Fallible α) (f : α → Fallible β) : Fallible β :=
  match o with
  | ok a => f a
  | err message => err message
  | fault => fault

instance : Monad Fallible where
  pure := ok
  bind := Fallible.bind

@[simp] theorem pure_eq (a : α) : (pure a : Fallible α) = ok a := rfl

@[simp] theorem ok_bind (a : α) (f : α → Fallible β) : ok a >>= f = f a := rfl

@[simp] theorem err_bind (message : String) (f : α → Fallible β) :
    (err message : Fallible α) >>= f = err message := rfl

@[simp] theorem fault_bind (f : α → Fallible β) : (fault : Fallible α) >>= f = fault := rfl

instance : LawfulMonad Fallible :=
  LawfulMonad.mk' Fallible (fun o => by cases o <;> rfl) (fun _ _ => rfl) (fun o _ _ => by cases o <;> rfl)

def Returns (o : Fallible α) : Prop := o ≠ fault

@[simp] theorem returns_ok (a : α) : (ok a).Returns := fun h => by cases h

@[simp] theorem returns_err (message : String) : (err message : Fallible α).Returns := fun h => by cases h

@[simp] theorem not_returns_fault : ¬ (fault : Fallible α).Returns := fun h => h rfl

theorem returns_bind {o : Fallible α} {f : α → Fallible β} :
    (o >>= f).Returns ↔ o.Returns ∧ ∀ a, o = ok a → (f a).Returns := by
  cases o with
  | ok a => simp
  | err message => simp
  | fault => simp

theorem bind_eq_ok {o : Fallible α} {f : α → Fallible β} {b : β} :
    o >>= f = ok b ↔ ∃ a, o = ok a ∧ f a = ok b := by
  cases o with
  | ok a => simp
  | err message => simp
  | fault => simp

def ofOption (message : String) : Option α → Fallible α
  | some a => ok a
  | none => err message

@[simp] theorem returns_ofOption (message : String) (o : Option α) : (ofOption message o).Returns := by
  cases o with
  | none => exact returns_err message
  | some a => exact returns_ok a

def check (message : String) (p : Prop) [Decidable p] : Fallible Unit := if p then ok () else err message

@[simp] theorem returns_check (message : String) (p : Prop) [Decidable p] : (check message p).Returns := by
  rw [check]
  split
  · exact returns_ok ()
  · exact returns_err message

theorem of_check_eq_ok {message : String} {p : Prop} [Decidable p] {u : Unit}
    (h : check message p = ok u) : p := by
  rw [check] at h
  split_ifs at h with hp
  exact hp

/-- Addition of machine numbers below `limit`. -/
def add (limit a b : ℕ) : Fallible ℕ := if a + b < limit then ok (a + b) else fault

theorem add_of_lt {limit a b : ℕ} (h : a + b < limit) : add limit a b = ok (a + b) := if_pos h

def sub (a b : ℕ) : Fallible ℕ := if b ≤ a then ok (a - b) else fault

theorem sub_of_le {a b : ℕ} (h : b ≤ a) : sub a b = ok (a - b) := if_pos h

def slice {γ : Type} (l : List γ) (start stop : ℕ) : Fallible (List γ) :=
  if start ≤ stop ∧ stop ≤ l.length then ok ((l.take stop).drop start) else fault

theorem slice_of_le {γ : Type} {l : List γ} {start stop : ℕ} (h : start ≤ stop) (h' : stop ≤ l.length) :
    slice l start stop = ok ((l.take stop).drop start) := if_pos ⟨h, h'⟩

def setAt {γ : Type} (l : List γ) (i : ℕ) (a : γ) : Fallible (List γ) :=
  if i < l.length then ok (l.set i a) else fault

theorem setAt_of_lt {γ : Type} {l : List γ} {i : ℕ} (h : i < l.length) (a : γ) :
    setAt l i a = ok (l.set i a) := if_pos h

def index {γ : Type} (l : List γ) (i : ℕ) : Fallible γ :=
  match l[i]? with
  | some a => ok a
  | none => fault

theorem index_of_some {γ : Type} {l : List γ} {i : ℕ} {a : γ} (h : l[i]? = some a) : index l i = ok a := by
  rw [index, h]

def collect : List (Fallible α) → Fallible (List α)
  | [] => ok []
  | o :: rest => do
    let a ← o
    let as ← collect rest
    return a :: as

theorem collect_ok (l : List α) : collect (l.map ok) = ok l := by
  induction l with
  | nil => rfl
  | cons a l ih => rw [map_cons, collect, ok_bind, ih, ok_bind, pure_eq]

theorem returns_collect {l : List (Fallible α)} (h : ∀ o ∈ l, o.Returns) : (collect l).Returns := by
  induction l with
  | nil => exact returns_ok []
  | cons o l ih =>
    rw [collect, returns_bind]
    refine ⟨h o mem_cons_self, fun a _ => returns_bind.mpr ⟨?_, fun as _ => returns_ok _⟩⟩
    exact ih fun o' ho' => h o' (mem_cons_of_mem o ho')

theorem returns_collect_iff {l : List (Fallible α)} (h : ∀ o ∈ l, ∀ message, o ≠ err message) :
    (collect l).Returns ↔ ∀ o ∈ l, o.Returns := by
  refine ⟨fun hall => ?_, returns_collect⟩
  induction l with
  | nil => exact fun o ho => by cases ho
  | cons o l ih =>
    rw [collect, returns_bind] at hall
    refine forall_mem_cons.mpr ⟨hall.1, ?_⟩
    cases o with
    | fault => exact absurd rfl hall.1
    | err message => exact absurd rfl (h _ mem_cons_self message)
    | ok a =>
      exact ih (fun o' ho' => h o' (mem_cons_of_mem _ ho')) (returns_bind.mp (hall.2 a rfl)).1

theorem collect_ne_err {l : List (Fallible α)} (h : ∀ o ∈ l, ∀ message, o ≠ err message)
    (message : String) : collect l ≠ err message := by
  induction l with
  | nil => exact fun heq => by cases heq
  | cons o l ih =>
    have hrest := ih fun o' ho' => h o' (mem_cons_of_mem _ ho')
    rw [collect]
    cases o with
    | fault => exact fun heq => by cases heq
    | err m => exact absurd rfl (h _ mem_cons_self m)
    | ok a =>
      rw [ok_bind]
      cases hl : collect l with
      | fault => exact fun heq => by cases heq
      | ok as => exact fun heq => by cases heq
      | err m =>
        rw [hl] at hrest
        rw [err_bind]
        exact fun heq => hrest (by cases heq; rfl)

end Fallible

open Fallible

/-! ### Cursors -/

structure Cursor where
  bytes : ByteSeq
  offset : ℕ

abbrev CursorReader (α : Type) := StateT Cursor Fallible α

namespace Cursor

open List

variable {α β : Type} {c c' : Cursor}

def start (bytes : ByteSeq) : Cursor := ⟨bytes, 0⟩

def take (len : ℕ) : CursorReader ByteSeq := fun c => do
  let stop ← add (2 ^ 64) c.offset len
  if stop > c.bytes.length then .err "unexpected eof"
  else do
    let piece ← slice c.bytes c.offset stop
    return (piece, { c with offset := stop })

def readUInt (w : ℕ) : CursorReader ℕ := do
  let piece ← take w
  return leNat piece

def remaining : CursorReader ℕ := fun c => .ok (c.bytes.length - c.offset, c)

def lift (o : Fallible α) : CursorReader α := fun c => o >>= fun a => .ok (a, c)

def times : ℕ → CursorReader α → CursorReader (List α)
  | 0, _ => return []
  | n + 1, r => do
    let a ← r
    let as ← times n r
    return a :: as

theorem bind_apply (r : CursorReader α) (f : α → CursorReader β) (c : Cursor) :
    (r >>= f) c = (r c >>= fun p => f p.1 p.2) := rfl

theorem pure_apply (a : α) (c : Cursor) : (pure a : CursorReader α) c = .ok (a, c) := rfl

theorem times_length {n : ℕ} {r : CursorReader α} {as : List α} (h : times n r c = .ok (as, c')) :
    as.length = n := by
  induction n generalizing c as with
  | zero =>
    cases h
    rfl
  | succ n ih =>
    rw [times, bind_apply, bind_eq_ok] at h
    obtain ⟨⟨a, c₁⟩, -, h⟩ := h
    rw [bind_apply, bind_eq_ok] at h
    obtain ⟨⟨as', c₂⟩, has, h⟩ := h
    cases h
    rw [length_cons, ih has]

structure Within (c : Cursor) : Prop where
  offset_le : c.offset ≤ c.bytes.length
  length_lt : c.bytes.length < 2 ^ 63

theorem Within.start {bytes : ByteSeq} (h : bytes.length < 2 ^ 63) : (start bytes).Within :=
  ⟨Nat.zero_le _, h⟩

def piece (c : Cursor) (len : ℕ) : ByteSeq := (c.bytes.drop c.offset).take len

theorem take_eq (c : Cursor) (len : ℕ) :
    take len c = if 2 ^ 64 ≤ c.offset + len then .fault
      else if c.bytes.length < c.offset + len then .err "unexpected eof"
      else .ok (c.piece len, { c with offset := c.offset + len }) := by
  by_cases hover : c.offset + len < 2 ^ 64
  · rw [if_neg (Nat.not_le.mpr hover), take, add_of_lt hover, ok_bind]
    by_cases hend : c.offset + len > c.bytes.length
    · rw [if_pos hend, if_pos hend]
    · rw [if_neg hend, if_neg hend, slice_of_le (Nat.le_add_right _ _) (Nat.not_lt.mp hend), ok_bind,
        pure_eq, drop_take, Nat.add_sub_cancel_left, piece]
  · rw [if_pos (Nat.not_lt.mp hover), take, add, if_neg hover, fault_bind]

theorem take_small (h : c.Within) {len : ℕ} (hlen : len ≤ 2 ^ 63) :
    take len c = if c.bytes.length < c.offset + len then .err "unexpected eof"
      else .ok (c.piece len, { c with offset := c.offset + len }) := by
  have hle := h.offset_le
  have hlt := h.length_lt
  rw [take_eq, if_neg (by omega)]

theorem readUInt_eq (h : c.Within) {w : ℕ} (hw : w ≤ 8) :
    readUInt w c = if c.bytes.length < c.offset + w then .err "unexpected eof"
      else .ok (leNat (c.piece w), { c with offset := c.offset + w }) := by
  rw [readUInt, bind_apply, take_small h (by omega)]
  split
  · rfl
  · rfl

/-! ### Readers that return -/

/-- The reader returns, and leaves the cursor inside the same bytes. -/
structure Sound (r : CursorReader α) : Prop where
  returns : ∀ c : Cursor, c.Within → (r c).Returns
  moves : ∀ c : Cursor, c.Within → ∀ a c', r c = .ok (a, c') → c'.bytes = c.bytes ∧ c'.Within

def Moves (r : CursorReader α) : Prop :=
  ∀ c : Cursor, c.Within → ∀ a c', r c = .ok (a, c') → c'.bytes = c.bytes ∧ c'.Within

theorem moves_take (len : ℕ) : Moves (take len) := by
  intro c hc a c' heq
  rw [take_eq] at heq
  split_ifs at heq with h₁ h₂
  cases heq
  exact ⟨rfl, ⟨Nat.not_lt.mp h₂, hc.length_lt⟩⟩

theorem Moves.bind {r : CursorReader α} {f : α → CursorReader β} (h : Moves r) (h' : ∀ a, Moves (f a)) :
    Moves (r >>= f) := by
  intro c hc b c' heq
  rw [bind_apply, bind_eq_ok] at heq
  obtain ⟨⟨a, c₁⟩, hr, hf⟩ := heq
  obtain ⟨hbytes, hwithin⟩ := h c hc a c₁ hr
  obtain ⟨hbytes', hwithin'⟩ := h' a c₁ hwithin b c' hf
  exact ⟨hbytes'.trans hbytes, hwithin'⟩

theorem moves_pure (a : α) : Moves (pure a : CursorReader α) := by
  intro c hc b c' heq
  cases heq
  exact ⟨rfl, hc⟩

theorem moves_lift (o : Fallible α) : Moves (lift o) := by
  intro c hc a c' heq
  obtain ⟨b, -, hb⟩ := bind_eq_ok.mp heq
  cases hb
  exact ⟨rfl, hc⟩

theorem moves_readUInt (w : ℕ) : Moves (readUInt w) := (moves_take w).bind fun _ => moves_pure _

namespace Sound

theorem pure (a : α) : Sound (Pure.pure a : CursorReader α) := ⟨fun _ _ => returns_ok _, moves_pure a⟩

theorem bind {r : CursorReader α} {f : α → CursorReader β} (h : Sound r) (h' : ∀ a, Sound (f a)) :
    Sound (r >>= f) where
  returns c hc := by
    rw [bind_apply, returns_bind]
    refine ⟨h.returns c hc, fun p heq => ?_⟩
    exact (h' p.1).returns p.2 (h.moves c hc p.1 p.2 heq).2
  moves := Moves.bind h.moves fun a => (h' a).moves

theorem lift {o : Fallible α} (h : o.Returns) : Sound (lift o) where
  returns _ _ := returns_bind.mpr ⟨h, fun _ _ => returns_ok _⟩
  moves := moves_lift o

theorem readUInt (w : ℕ) (hw : w ≤ 8) : Sound (readUInt w) where
  returns c hc := by
    rw [readUInt_eq hc hw]
    split
    · exact returns_err _
    · exact returns_ok _
  moves := moves_readUInt w

theorem times {r : CursorReader α} (h : Sound r) (n : ℕ) : Sound (times n r) := by
  induction n with
  | zero => exact pure []
  | succ n ih => exact h.bind fun a => ih.bind fun as => pure _

end Sound

/-- The reader reads `w` bytes, or fails when there are fewer. -/
structure Fixed (w : ℕ) (r : CursorReader α) : Prop where
  short : ∀ c : Cursor, c.Within → c.bytes.length < c.offset + w → ∃ message, r c = .err message
  whole : ∀ c : Cursor, c.Within → c.offset + w ≤ c.bytes.length →
    ∃ a, r c = .ok (a, { c with offset := c.offset + w })

namespace Fixed

variable {r : CursorReader α} {f : α → CursorReader β} {w w' : ℕ}

theorem pure (a : α) : Fixed 0 (Pure.pure a : CursorReader α) where
  short c hc hlt := absurd hc.offset_le (by omega)
  whole _ _ _ := ⟨a, rfl⟩

theorem readUInt (w : ℕ) (hw : w ≤ 8) : Fixed w (readUInt w) where
  short c hc hlt := ⟨_, by rw [readUInt_eq hc hw, if_pos hlt]⟩
  whole c hc hle := ⟨_, by rw [readUInt_eq hc hw, if_neg (Nat.not_lt.mpr hle)]⟩

theorem bind (h : Fixed w r) (h' : ∀ a, Fixed w' (f a)) : Fixed (w + w') (r >>= f) where
  short c hc hlt := by
    rw [bind_apply]
    rcases Nat.lt_or_ge c.bytes.length (c.offset + w) with hfirst | hfirst
    · obtain ⟨message, hr⟩ := h.short c hc hfirst
      exact ⟨message, by rw [hr, err_bind]⟩
    · obtain ⟨a, hr⟩ := h.whole c hc hfirst
      rw [hr, ok_bind]
      exact (h' a).short _ ⟨hfirst, hc.length_lt⟩ (by simpa [Nat.add_assoc] using hlt)
  whole c hc hle := by
    obtain ⟨a, hr⟩ := h.whole c hc (by omega)
    obtain ⟨b, hf⟩ := (h' a).whole { c with offset := c.offset + w } ⟨by simp only; omega, hc.length_lt⟩
      (by simpa [Nat.add_assoc] using hle)
    refine ⟨b, ?_⟩
    rw [bind_apply, hr, ok_bind, hf, Nat.add_assoc]

theorem bind_pure (h : Fixed w r) (g : α → β) : Fixed w (r >>= fun a => Pure.pure (g a)) :=
  h.bind fun a => pure (g a)

theorem times (h : Fixed w r) (n : ℕ) : Fixed (n * w) (times n r) := by
  induction n with
  | zero =>
    rw [Nat.zero_mul]
    exact pure []
  | succ n ih =>
    rw [Nat.succ_mul, Nat.add_comm]
    exact h.bind fun a => ih.bind_pure fun as => a :: as

theorem sound (h : Fixed w r) : Sound r where
  returns c hc := by
    rcases Nat.lt_or_ge c.bytes.length (c.offset + w) with hlt | hle
    · obtain ⟨message, hr⟩ := h.short c hc hlt
      exact hr ▸ returns_err message
    · obtain ⟨a, hr⟩ := h.whole c hc hle
      exact hr ▸ returns_ok _
  moves c hc a c' heq := by
    rcases Nat.lt_or_ge c.bytes.length (c.offset + w) with hlt | hle
    · obtain ⟨message, hr⟩ := h.short c hc hlt
      cases hr.symm.trans heq
    · obtain ⟨b, hr⟩ := h.whole c hc hle
      cases hr.symm.trans heq
      exact ⟨rfl, ⟨hle, hc.length_lt⟩⟩

end Fixed

/-! ### Readers that read back what was written -/

/-- The reader reads `a` off `bytes`, whatever stands before and behind them. -/
def Reads (r : CursorReader α) (bytes : ByteSeq) (a : α) : Prop :=
  ∀ before behind : ByteSeq, (before ++ (bytes ++ behind)).length < 2 ^ 63 →
    r ⟨before ++ (bytes ++ behind), before.length⟩ =
      .ok (a, ⟨before ++ (bytes ++ behind), before.length + bytes.length⟩)

namespace Reads

variable {r : CursorReader α} {f : α → CursorReader β} {bytes bytes' : ByteSeq} {a : α} {b : β}

theorem pure (a : α) : Reads (Pure.pure a) [] a := fun _ _ _ => rfl

theorem bind (h : Reads r bytes a) (h' : Reads (f a) bytes' b) : Reads (r >>= f) (bytes ++ bytes') b := by
  intro before behind hlen
  rw [append_assoc] at hlen ⊢
  rw [bind_apply, h before (bytes' ++ behind) hlen, ok_bind]
  have hnext := h' (before ++ bytes) behind (by rwa [append_assoc])
  rw [append_assoc, length_append] at hnext
  rw [hnext, length_append, Nat.add_assoc]

theorem bind_nil (h : Reads r bytes a) (h' : Reads (f a) [] b) : Reads (r >>= f) bytes b := by
  have hbind := h.bind h'
  rwa [append_nil] at hbind

theorem bind_pure (h : Reads r bytes a) (g : α → β) :
    Reads (r >>= fun a => Pure.pure (g a)) bytes (g a) := h.bind_nil (pure (g a))

theorem lift_bind {o : Fallible α} (ho : o = .ok a) (h : Reads (f a) bytes b) :
    Reads (lift o >>= f) bytes b := by
  rw [ho]
  exact h

theorem take (bytes : ByteSeq) : Reads (take bytes.length) bytes bytes := by
  intro before behind hlen
  rw [length_append, length_append] at hlen
  rw [take_eq, if_neg (by simp only; omega), if_neg (by simp only [length_append]; omega)]
  simp [piece]

theorem readUInt {w n : ℕ} (hn : n < 256 ^ w) : Reads (readUInt w) (leBytes w n) n := by
  have htake := take (leBytes w n)
  rw [length_leBytes] at htake
  have hread := htake.bind_pure leNat
  rwa [leNat_leBytes_of_lt hn] at hread

theorem times {γ : Type} {e : γ → ByteSeq} {f : γ → α} {l : List γ} (h : ∀ c ∈ l, Reads r (e c) (f c)) :
    Reads (times l.length r) (l.flatMap e) (l.map f) := by
  induction l with
  | nil => exact pure []
  | cons c l ih =>
    have htail := ih fun c' hc' => h c' (mem_cons_of_mem c hc')
    exact (h c mem_cons_self).bind (htail.bind_pure fun as => f c :: as)

theorem counted {γ : Type} {e : γ → ByteSeq} {f : γ → α} {l : List γ} {w : ℕ} (hlen : l.length < 256 ^ w)
    (h : ∀ c ∈ l, Reads r (e c) (f c)) :
    Reads (Cursor.readUInt w >>= fun n => Cursor.times n r) (leBytes w l.length ++ l.flatMap e) (l.map f) :=
  (readUInt hlen).bind (times h)

theorem check_remaining {n : ℕ} (h : Reads r bytes a) (hn : n ≤ bytes.length) (message : String) :
    Reads (remaining >>= fun left => lift (check message (n ≤ left)) >>= fun _ => r)
      bytes a := by
  intro before behind hlen
  have hleft : n ≤ (before ++ (bytes ++ behind)).length - before.length := by
    simp only [length_append]
    omega
  have hcheck : check message (n ≤ (before ++ (bytes ++ behind)).length - before.length) = .ok () :=
    if_pos hleft
  rw [bind_apply, remaining, ok_bind, bind_apply, lift]
  simp only
  rw [hcheck, ok_bind, ok_bind, h before behind hlen]

theorem whole (h : Reads r bytes a) (hlen : bytes.length < 2 ^ 63) :
    r (start bytes) = .ok (a, ⟨bytes, bytes.length⟩) := by
  have hread := h [] [] (by simpa using hlen)
  simpa [start] using hread

end Reads

end Cursor
