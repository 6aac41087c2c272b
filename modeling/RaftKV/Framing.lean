import RaftKV.LittleEndian

/-!
# Framed records

A stream of records of the form

```text
[length:4][checksum:4][payload]
```

that a reader follows until a record is short or fails its checksum, and the
buffering of a stream that is written piece by piece.  Cutting such a stream anywhere
leaves the records in front of the cut.
-/

namespace RaftKV

/-! ## Buffered writing -/

/-- A buffered writer of some capacity that holds `held` and is given `p`: the bytes it
passes on, and those it holds then.  What does not fit goes out together with what was
held; a piece longer than the whole buffer goes out directly. -/
def bufferedWrite (capacity : ℕ) (held p : Bytes) : Bytes × Bytes :=
  if p.length ≤ capacity - held.length then ([], held ++ p)
  else if held = [] then (p, [])
  else if p.length ≤ capacity - held.length + capacity then
    (held ++ p.take (capacity - held.length), p.drop (capacity - held.length))
  else (held ++ p, [])

/-- Nothing is lost or reordered. -/
theorem bufferedWrite_append (capacity : ℕ) (held p : Bytes) :
    (bufferedWrite capacity held p).1 ++ (bufferedWrite capacity held p).2 = held ++ p := by
  unfold bufferedWrite
  split
  · simp
  · split
    · next hnil => simp [hnil]
    · split <;> simp

/-! ## Sizes -/

section Within

variable {α β : Type*} (size : α → ℕ)

/-- The records that lie entirely in the first `c` bytes. -/
def within : ℕ → List α → List α
  | _, [] => []
  | c, x :: xs => if size x ≤ c then x :: within (c - size x) xs else []

theorem within_isPrefix (c : ℕ) (xs : List α) : within size c xs <+: xs := by
  induction xs generalizing c with
  | nil => exact List.prefix_rfl
  | cons x xs ih =>
      rw [within]
      split
      · exact List.cons_prefix_cons.mpr ⟨rfl, ih _⟩
      · exact List.nil_prefix

theorem within_of_length {c : ℕ} {xs : List α}
    (h : (within size c xs).length = xs.length) : within size c xs = xs :=
  (within_isPrefix size c xs).eq_of_length h

theorem within_map (f : β → α) (c : ℕ) (xs : List β) :
    within size c (xs.map f) = (within (fun x => size (f x)) c xs).map f := by
  induction xs generalizing c with
  | nil => rfl
  | cons x xs ih =>
      simp only [List.map_cons, within]
      split
      · rw [ih, List.map_cons]
      · rfl

end Within

/-! ## Frames -/

section Frames

variable (check : Bytes → UInt32)

def frameSize (p : Bytes) : ℕ :=
  8 + p.length

def frame (p : Bytes) : Bytes :=
  leBytes 4 p.length ++ leBytes 4 (check p).toNat ++ p

def frames (ps : List Bytes) : Bytes :=
  ps.flatMap (frame check)

/-- One record from the front of a stream. -/
def readFrame (bs : Bytes) : Option (Bytes × Bytes) := do
  let (length, bs) ← readLE 4 bs
  let (expected, bs) ← readLE 4 bs
  let (p, rest) ← readFull length bs
  if (check p).toNat = expected then some (p, rest) else none

/-- Records from the front of a stream, in at most so many rounds. -/
def payloadsUpTo : ℕ → Bytes → List Bytes
  | 0, _ => []
  | rounds + 1, bs =>
      match readFrame check bs with
      | none => []
      | some (p, rest) => p :: payloadsUpTo rounds rest

/-- The records up to the first that is short or fails its checksum. -/
def payloads (bs : Bytes) : List Bytes :=
  payloadsUpTo check bs.length bs

@[simp] theorem length_frame (p : Bytes) : (frame check p).length = frameSize p := by
  rw [frame, List.length_append, List.length_append, length_leBytes, length_leBytes, frameSize]

@[simp] theorem frames_nil : frames check [] = [] := rfl

@[simp] theorem frames_cons (p : Bytes) (ps : List Bytes) :
    frames check (p :: ps) = frame check p ++ frames check ps := rfl

@[simp] theorem frames_append (ps qs : List Bytes) :
    frames check (ps ++ qs) = frames check ps ++ frames check qs :=
  List.flatMap_append

variable {check}

/-- A record takes its header and its payload off the stream. -/
theorem length_of_readFrame {bs p rest : Bytes} (h : readFrame check bs = some (p, rest)) :
    bs.length = frameSize p + rest.length := by
  simp only [readFrame, readLE, Option.bind_eq_bind, Option.bind_eq_some_iff,
    Option.map_eq_some_iff] at h
  obtain ⟨-, ⟨⟨w₁, r₁⟩, hread₁, rfl⟩, -, ⟨⟨w₂, r₂⟩, hread₂, rfl⟩, ⟨q, r₃⟩, hread₃, h⟩ := h
  obtain ⟨rfl, hlen₁⟩ := readFull_some hread₁
  obtain ⟨rfl, hlen₂⟩ := readFull_some hread₂
  obtain ⟨rfl, -⟩ := readFull_some hread₃
  split at h
  · simp only [Option.some.injEq, Prod.mk.injEq] at h
    obtain ⟨rfl, rfl⟩ := h
    simp only [List.length_append, hlen₁, hlen₂, frameSize]
    omega
  · simp at h

/-- Rounds beyond the length of the stream are never used. -/
theorem payloadsUpTo_eq {rounds : ℕ} {bs : Bytes} (h : bs.length ≤ rounds) :
    payloadsUpTo check rounds bs = payloads check bs := by
  suffices ∀ {n m : ℕ} {bs : Bytes}, bs.length ≤ n → bs.length ≤ m →
      payloadsUpTo check n bs = payloadsUpTo check m bs from this h le_rfl
  intro n
  induction n with
  | zero =>
      intro m bs hn _
      have hnil : bs = [] := List.length_eq_zero_iff.mp (by omega)
      subst hnil
      cases m with
      | zero => rfl
      | succ m => rfl
  | succ n ih =>
      intro m bs hn hm
      cases m with
      | zero =>
          have hnil : bs = [] := List.length_eq_zero_iff.mp (by omega)
          subst hnil
          rfl
      | succ m =>
          simp only [payloadsUpTo]
          split
          · rfl
          · next p rest hread =>
              have hlen := length_of_readFrame hread
              unfold frameSize at hlen
              rw [@ih m rest (by omega) (by omega)]

theorem payloads_of_none {bs : Bytes} (h : readFrame check bs = none) :
    payloads check bs = [] := by
  rw [← payloadsUpTo_eq (Nat.le_succ _), payloadsUpTo, h]

theorem payloads_of_some {bs p rest : Bytes} (h : readFrame check bs = some (p, rest)) :
    payloads check bs = p :: payloads check rest := by
  have hlen := length_of_readFrame h
  unfold frameSize at hlen
  rw [← payloadsUpTo_eq (Nat.le_succ _), payloadsUpTo, h]
  simp only
  rw [payloadsUpTo_eq (by omega)]

@[simp] theorem payloads_nil : payloads check [] = [] := rfl

theorem readFrame_frame {p : Bytes} (h : p.length < 2 ^ 32) (rest : Bytes) :
    readFrame check (frame check p ++ rest) = some (p, rest) := by
  have hsum : (check p).toNat < 256 ^ 4 := (check p).toNat_lt
  have hlen : p.length < 256 ^ 4 := h
  unfold readFrame frame
  rw [List.append_assoc, List.append_assoc, readLE_append hlen]
  simp only [Option.bind_eq_bind, Option.bind_some]
  rw [readLE_append hsum]
  simp

/-- Whole records are read, whatever follows them. -/
theorem payloads_frames {ps : List Bytes} (h : ∀ p ∈ ps, p.length < 2 ^ 32) (rest : Bytes) :
    payloads check (frames check ps ++ rest) = ps ++ payloads check rest := by
  induction ps with
  | nil => rfl
  | cons p ps ih =>
      rw [frames_cons, List.append_assoc,
        payloads_of_some (readFrame_frame (h p List.mem_cons_self) _),
        ih fun q hq => h q (List.mem_cons_of_mem _ hq), List.cons_append]

/-! ## Cutting a stream -/

/-- A record of which at least one byte is missing is not read. -/
theorem readFrame_take {p : Bytes} {c : ℕ} (h : p.length < 2 ^ 32) (hc : c < frameSize p) :
    readFrame check ((frame check p).take c) = none := by
  have hsum : (check p).toNat < 256 ^ 4 := (check p).toNat_lt
  have hlen : p.length < 256 ^ 4 := h
  have hshort : ∀ {w n : ℕ} {bs : Bytes}, n < w → readLE w (bs.take n) = none := by
    intro w n bs hn
    unfold readLE readFull
    rw [if_neg (by rw [List.length_take]; omega), Option.map_none]
  unfold frameSize at hc
  unfold readFrame frame
  rw [List.append_assoc]
  rcases Nat.lt_or_ge c 4 with hc4 | hc4
  · rw [hshort hc4]
    rfl
  · rw [List.take_append, List.take_of_length_le (by simpa using hc4), length_leBytes,
      readLE_append hlen]
    simp only [Option.bind_eq_bind, Option.bind_some]
    rcases Nat.lt_or_ge (c - 4) 4 with hc8 | hc8
    · rw [hshort hc8]
      rfl
    · rw [List.take_append, List.take_of_length_le (by simpa using hc8), length_leBytes,
        readLE_append hsum]
      simp only [Option.bind_some]
      have hnone : readFull p.length (p.take (c - 4 - 4)) = none :=
        readFull_eq_none (by rw [List.length_take]; omega)
      rw [hnone]
      rfl

/-- A cut stream: the records in front of the cut, and an unreadable rest. -/
theorem take_frames {ps : List Bytes} (h : ∀ p ∈ ps, p.length < 2 ^ 32) (c : ℕ) :
    ∃ torn, (frames check ps).take c = frames check (within frameSize c ps) ++ torn ∧
      readFrame check torn = none := by
  induction ps generalizing c with
  | nil => exact ⟨[], by simp [within], rfl⟩
  | cons p ps ih =>
      have hp := h p List.mem_cons_self
      rw [within, frames_cons]
      split
      · next hle =>
          obtain ⟨torn, htake, hnone⟩ := ih (fun q hq => h q (List.mem_cons_of_mem _ hq))
            (c - frameSize p)
          refine ⟨torn, ?_, hnone⟩
          rw [List.take_append, List.take_of_length_le (by simpa using hle), length_frame, htake,
            frames_cons, List.append_assoc]
      · next hlt =>
          refine ⟨(frame check p).take c, ?_, readFrame_take hp (by omega)⟩
          rw [List.take_append_of_le_length (by rw [length_frame]; omega)]
          rfl

end Frames

end RaftKV
