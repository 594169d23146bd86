import Mathlib.Data.List.MinMax
import Mikelibc.Mb64.Code
import Mikelibc.Base64.RoundTrip

/-! # What `mb64` encodes

The size grows with every `read`, the contents do not: each one overwrites the
buffer from its start. So the whole input is encoded exactly if it comes in one
piece at most, and without an error, which takes one off the size
(`mb64_encodes_iff`). -/
namespace Mikelibc.Mb64
open CSem Base64

def stream (pieces : List Piece) : List UInt8 := pieces.flatMap Subtype.val

/-- The reads that deliver it, and end with 0 or with an error. -/
def deliver (pieces : List Piece) (ending : Except String Unit) : List ReadResult :=
  pieces.map .bytes ++ [match ending with | .ok _ => .zero | .error e => .failed e]

/-- How many bytes of the buffer hold input, whatever comes last. -/
def held (pieces : List Piece) : Nat := (pieces.map fun p => p.1.length).foldr max 0

/-- The program encodes, and has its input open. -/
def Encodes (argv : List String) (fopen : Except String Unit) : Prop :=
  2 ≤ argv.length ∧ (parseArgs argv).encode = true ∧
    ((parseArgs argv).fromStdin ∨ fopen.isOk = true)

/-- It prints the encoding of the whole input. -/
def PrintsAll (malloc : Nat → Bool) (argv : List String) (fopen : Except String Unit)
    (pieces : List Piece) (ending : Except String Unit) (buffer : Buffer) : Prop :=
  (main malloc argv fopen buffer (deliver pieces ending)).stdout.head? =
    some (encodeList (stream pieces) ++ line "\n")

/-- The reads come to their end, and `mbase64_encode` is asked to read input only. -/
def InBounds (pieces : List Piece) (ending : Except String Unit) (buffer : Buffer) : Prop :=
  ∃ v, readLoop (deliver pieces ending) ⟨buffer, 0, false, []⟩ = .ok v ∧
    (toSize v.inputSize).toNat ≤ held pieces

variable {malloc : Nat → Bool} {argv : List String} {fopen : Except String Unit}
  {pieces : List Piece} {ending : Except String Unit} {buffer : Buffer}

/-! ## The buffer -/

theorem stream_cons (p : Piece) (pieces : List Piece) :
    stream (p :: pieces) = p.1 ++ stream pieces :=
  List.flatMap_cons

def fillAll (buffer : Buffer) (pieces : List Piece) : Buffer := pieces.foldl Buffer.fill buffer

/-- Behind the longest piece the buffer is as it was. -/
theorem fillAll_drop {n : Nat} (h : ∀ p ∈ pieces, p.1.length ≤ n) :
    (fillAll buffer pieces).1.drop n = buffer.1.drop n := by
  induction pieces generalizing buffer with
  | nil => rfl
  | cons p pieces ih =>
    obtain ⟨hp, hrest⟩ := List.forall_mem_cons.mp h
    rw [fillAll, List.foldl_cons, ← fillAll, ih hrest, Buffer.fill, List.drop_append,
      List.drop_eq_nil_of_le hp, List.nil_append, List.drop_drop, Nat.add_sub_cancel' hp]

theorem le_held {p : Piece} (h : p ∈ pieces) : p.1.length ≤ held pieces :=
  List.le_max_of_le' 0 (List.mem_map_of_mem (f := fun p : Piece => p.1.length) h) le_rfl

/-- Two pieces are longer than the longest. -/
theorem held_lt (h : 2 ≤ pieces.length) : held pieces < (stream pieces).length := by
  have hle : ∀ pieces : List Piece, held pieces ≤ (stream pieces).length := by
    intro pieces
    induction pieces with
    | nil => exact Nat.le_refl 0
    | cons p pieces ih =>
      rw [held] at ih ⊢
      rw [stream_cons, List.map_cons, List.foldr_cons, List.length_append]
      omega
  match pieces, h with
  | p :: q :: rest, _ =>
    have hp := p.2.1
    have hq := q.2.1
    have hrest := hle rest
    rw [held] at hrest ⊢
    simp only [stream_cons, List.map_cons, List.foldr_cons, List.length_append]
    omega

/-! ## The loop -/

theorem ssizeAdd_of {a b : Int} (h : -ssizeMax - 1 ≤ a + b ∧ a + b ≤ ssizeMax) :
    ssizeAdd a b = .ok (a + b) := by
  unfold ssizeAdd
  rw [Outcome.require_of h]
  rfl

theorem ssizeAdd_value {a b c : Int} (h : ssizeAdd a b = .ok c) : c = a + b := by
  obtain ⟨_, _, h⟩ := Outcome.bind_eq_ok.mp h
  exact (Outcome.ok.inj h).symm

theorem readLoop_deliver {v w : ReadVars} (hv : v.done = false)
    (h : readLoop (deliver pieces ending) v = .ok w) : w.buffer = fillAll v.buffer pieces ∧
      w.inputSize = v.inputSize + (stream pieces).length + if ending.isOk then 0 else -1 := by
  induction pieces generalizing v with
  | nil =>
    unfold deliver at h
    simp only [List.map_nil, List.nil_append, readLoop, hv, Bool.false_eq_true, if_false] at h
    cases ending with
    | ok _ | error e =>
      obtain ⟨u, hu, h⟩ := Outcome.bind_eq_ok.mp h
      obtain ⟨n, hn, hu⟩ := Outcome.bind_eq_ok.mp hu
      cases hu
      cases h
      refine ⟨rfl, ?_⟩
      rw [ssizeAdd_value hn]
      simp [stream, Except.isOk, Except.toBool]
  | cons p pieces ih =>
    unfold deliver at h
    simp only [List.map_cons, List.cons_append, readLoop, hv, Bool.false_eq_true, if_false] at h
    obtain ⟨u, hu, h⟩ := Outcome.bind_eq_ok.mp h
    obtain ⟨n, hn, hu⟩ := Outcome.bind_eq_ok.mp hu
    cases hu
    obtain ⟨hbuffer, hsize⟩ := ih (v := { v with buffer := v.buffer.fill p, inputSize := n }) hv h
    refine ⟨hbuffer, ?_⟩
    rw [hsize, ssizeAdd_value hn, stream_cons, List.length_append]
    push_cast
    omega

/-- One piece at most, and no error: the loop leaves the input at the start of the buffer. -/
theorem readLoop_one (hfew : pieces.length ≤ 1) :
    readLoop (deliver pieces (.ok ())) ⟨buffer, 0, false, []⟩ =
      .ok ⟨fillAll buffer pieces, (stream pieces).length, true, []⟩ := by
  -- the read that returns 0 leaves the size as it is
  have hzero : ∀ n : Nat, n ≤ bufsize → ssizeAdd n 0 = .ok n := fun n hn => by
    have hsum := ssizeAdd_of (a := n) (b := 0) (by unfold ssizeMax bufsize at *; omega)
    rwa [Int.add_zero] at hsum
  match pieces, hfew with
  | [], _ =>
    have h0 : ssizeAdd 0 0 = .ok 0 := hzero 0 (Nat.zero_le _)
    simp [deliver, readLoop, readRound, h0, fillAll, stream]
  | [p], _ =>
    have hp := p.2.2
    have hadd : ssizeAdd 0 p.1.length = .ok (p.1.length : Int) := by
      have hsum := ssizeAdd_of (a := 0) (b := p.1.length) (by unfold ssizeMax bufsize at *; omega)
      rwa [Int.zero_add] at hsum
    simp [deliver, readLoop, readRound, hadd, hzero _ hp, fillAll, stream]

theorem fillAll_one (hfew : pieces.length ≤ 1) :
    (fillAll buffer pieces).1.take (stream pieces).length = stream pieces := by
  match pieces, hfew with
  | [], _ => rfl
  | [p], _ => simp [fillAll, Buffer.fill, stream]

/-! ## The program -/

theorem decodeAgain_head (s : CString) (v : ReadVars) (first : List UInt8) :
    (decodeAgain malloc s v [first]).stdout.head? = some first := by
  simp only [decodeAgain, Ended.after]
  split <;> rfl

/-- In encode mode the first thing printed is what is encoded. -/
theorem main_prints (hmode : Encodes argv fopen) (reads : List ReadResult) (text : List UInt8) :
    (main malloc argv fopen buffer reads).stdout.head? = some (text ++ line "\n") ↔
      ∃ v s, readLoop reads ⟨buffer, 0, false, []⟩ = .ok v ∧ encodeInput malloc v = .ok s ∧
        s.chars = text := by
  obtain ⟨hargs, hencode, hopen⟩ := hmode
  obtain ⟨u, hinput⟩ : ∃ u, (if (parseArgs argv).fromStdin then (.ok () : Except String Unit)
      else fopen) = .ok u := by
    by_cases hstdin : (parseArgs argv).fromStdin
    · exact ⟨(), if_pos hstdin⟩
    · rcases hopen with h | h
      · exact absurd h hstdin
      · cases fopen with
        | ok u => exact ⟨u, if_neg hstdin⟩
        | error e => cases h
  simp only [main, if_neg (Nat.not_lt.mpr hargs), hinput, hencode, if_true]
  cases hloop : readLoop reads ⟨buffer, 0, false, []⟩ with
  | ok v =>
    simp only [Ended.after, Outcome.ok.injEq]
    cases hs : encodeInput malloc v with
    | ok s =>
      have hhead : (if (parseArgs argv).test then decodeAgain malloc s v [printfString s]
          else ⟨[printfString s], v.stderr, .ok 0⟩ : Ended).stdout.head? = some (printfString s) := by
        split
        · exact decodeAgain_head s v _
        · rfl
      rw [hhead]
      simp [printfString, hs]
    | abort | fault | hang => simp [hs]
  | abort | fault | hang => simp [Ended.after]

/-- The encoding of the first bytes of the buffer, as the string that is printed. -/
theorem encodeInput_eq (hm : ∀ n, malloc n = true) {v : ReadVars}
    (hsize : (toSize v.inputSize).toNat ≤ bufsize) :
    ∃ s, encodeInput malloc v = .ok s ∧
      s.chars = encodeList (v.buffer.1.take (toSize v.inputSize).toNat) := by
  have hlength :
      (v.buffer.1.take (toSize v.inputSize).toNat).length = (toSize v.inputSize).toNat := by
    rw [List.length_take, v.buffer.2]
    exact Nat.min_eq_left hsize
  have hlen := encodeList_length (v.buffer.1.take (toSize v.inputSize).toNat)
  rw [hlength] at hlen
  unfold bufsize at hsize
  have hencode := mbase64Encode_eq hm (n := toSize v.inputSize) hlength.symm
    (by rw [hlength]; unfold intMax; omega)
  rw [mbase64Encode_take _ (by unfold intMax; omega)] at hencode
  let s : CString := ⟨encodeList (v.buffer.1.take (toSize v.inputSize).toNat), encodeList_noNul _,
    by rw [hlen]; omega⟩
  refine ⟨s, ?_, rfl⟩
  rw [encodeInput, hencode]
  exact Block.cstring_of s (Block.holds_write _ 0 _) (Nat.lt_succ_self _)

/-- What is printed in encode mode are the first bytes of the buffer, as many as the size says,
and there are as many. -/
theorem printsAll_iff (hm : ∀ n, malloc n = true) (hmode : Encodes argv fopen) :
    PrintsAll malloc argv fopen pieces ending buffer ↔
      ∃ v, readLoop (deliver pieces ending) ⟨buffer, 0, false, []⟩ = .ok v ∧
        (toSize v.inputSize).toNat ≤ bufsize ∧
        v.buffer.1.take (toSize v.inputSize).toNat = stream pieces := by
  rw [PrintsAll, main_prints hmode]
  constructor
  · intro hprints
    obtain ⟨v, s, hloop, hs, htext⟩ := hprints
    obtain ⟨output, houtput, _⟩ := Outcome.bind_eq_ok.mp hs
    have hsize : (toSize v.inputSize).toNat ≤ bufsize := by
      have hreads := mbase64Encode_reads houtput
      rwa [v.buffer.2] at hreads
    obtain ⟨t, ht, hchars⟩ := encodeInput_eq hm hsize
    rw [hs] at ht
    cases ht
    exact ⟨v, hloop, hsize, encodeList_injective (hchars.symm.trans htext)⟩
  · intro hall
    obtain ⟨v, hloop, hsize, htake⟩ := hall
    obtain ⟨s, hs, hchars⟩ := encodeInput_eq hm hsize
    exact ⟨v, s, hloop, hs, by rw [hchars, htake]⟩

/-- If the whole input is printed, there was no error, and the size is that of the input, which
lies at the start of the buffer. -/
theorem PrintsAll.spec (hm : ∀ n, malloc n = true) (hmode : Encodes argv fopen)
    (h : PrintsAll malloc argv fopen pieces ending buffer) :
    ending.isOk = true ∧ (stream pieces).length ≤ bufsize ∧
    (fillAll buffer pieces).1.take (stream pieces).length = stream pieces ∧
    ∀ v, readLoop (deliver pieces ending) ⟨buffer, 0, false, []⟩ = .ok v →
      (toSize v.inputSize).toNat = (stream pieces).length := by
  obtain ⟨v, hloop, hsize, htake⟩ := (printsAll_iff hm hmode).mp h
  obtain ⟨hbuffer, hinput⟩ := readLoop_deliver rfl hloop
  have hlength : (toSize v.inputSize).toNat = (stream pieces).length := by
    rw [← htake, List.length_take, v.buffer.2]
    exact (Nat.min_eq_left hsize).symm
  rw [hlength] at hsize htake
  rw [hbuffer] at htake
  refine ⟨?_, hsize, htake, fun w hw => ?_⟩
  · -- an error would have made the size one too small, or below 0
    by_contra herror
    simp only [Int.zero_add, if_neg herror] at hinput
    unfold bufsize at hsize
    cases hn : (stream pieces).length with
    | zero =>
      rw [hn] at hinput hlength
      rw [hinput] at hlength
      exact absurd hlength (by decide)
    | succ n =>
      rw [hn] at hinput hlength hsize
      rw [show v.inputSize = (n : Int) by omega, toSize_natCast (by omega)] at hlength
      omega
  · rw [hloop] at hw
    rw [← Outcome.ok.inj hw]
    exact hlength

/-- If that goes without reading behind the input, this came in one piece at most. -/
theorem PrintsAll.one_piece (hm : ∀ n, malloc n = true) (hmode : Encodes argv fopen)
    (h : PrintsAll malloc argv fopen pieces ending buffer) (hin : InBounds pieces ending buffer) :
    pieces.length ≤ 1 := by
  obtain ⟨_, _, _, hsize⟩ := h.spec hm hmode
  obtain ⟨v, hloop, hheld⟩ := hin
  rw [hsize v hloop] at hheld
  by_contra hmany
  have hlonger : held pieces < (stream pieces).length := held_lt (by omega)
  omega

/-- And also if it goes well whatever the buffer held before: behind the longest piece, input is
expected that only the uninitialized buffer could hold. -/
theorem one_piece_of_forall (hm : ∀ n, malloc n = true) (hmode : Encodes argv fopen)
    (hall : ∀ buffer, PrintsAll malloc argv fopen pieces ending buffer) : pieces.length ≤ 1 := by
  by_contra hmany
  have hheld : held pieces < (stream pieces).length := held_lt (by omega)
  obtain ⟨c, hc⟩ : ∃ c, (stream pieces)[held pieces]? = some c :=
    ⟨_, List.getElem?_eq_getElem hheld⟩
  let buffer : Buffer := ⟨List.replicate bufsize (c + 1), List.length_replicate⟩
  obtain ⟨_, hsize, htake, _⟩ := (hall buffer).spec hm hmode
  have hdrop : (fillAll buffer pieces).1.drop (held pieces) = buffer.1.drop (held pieces) :=
    fillAll_drop fun p hp => le_held hp
  have hcell : (fillAll buffer pieces).1[held pieces]? = some (c + 1) := by
    have hat := congrArg (fun l : List UInt8 => l[0]?) hdrop
    simp only [List.getElem?_drop, Nat.add_zero] at hat
    rw [hat]
    exact List.getElem?_replicate_of_lt (Nat.lt_of_lt_of_le hheld hsize)
  rw [← htake, List.getElem?_take_of_lt hheld, hcell] at hc
  exact absurd (Option.some.inj hc) (by simp)

/-- Input in one piece at most, with no error after it, is encoded, and nothing else. -/
theorem printsAll_of_one_piece (hm : ∀ n, malloc n = true) (hmode : Encodes argv fopen)
    (hfew : pieces.length ≤ 1) (hok : ending.isOk = true) :
    PrintsAll malloc argv fopen pieces ending buffer ∧ InBounds pieces ending buffer := by
  obtain rfl : ending = .ok () := by
    cases ending with
    | ok _ => rfl
    | error e => cases hok
  have hsmall : (stream pieces).length ≤ held pieces := by
    match pieces, hfew with
    | [], _ => exact Nat.le_refl 0
    | [p], _ => simp [stream, held]
  have hbuffer : held pieces ≤ bufsize := by
    match pieces, hfew with
    | [], _ => exact Nat.zero_le _
    | [p], _ => simpa [held] using p.2.2
  have hsize : (toSize ((stream pieces).length : Int)).toNat = (stream pieces).length :=
    toSize_natCast (by unfold bufsize at hbuffer; omega)
  refine ⟨(printsAll_iff hm hmode).mpr ⟨_, readLoop_one hfew, ?_, ?_⟩, _, readLoop_one hfew, ?_⟩
  · rw [hsize]; exact Nat.le_trans hsmall hbuffer
  · rw [hsize]; exact fillAll_one hfew
  · rw [hsize]; exact hsmall

/-- **When `mb64` encodes its whole input.** In encode mode it prints the encoding of all the bytes
that the reads deliver, and has only such bytes encoded, exactly when they come in one piece at most
and the reads do not end with an error. Already the text that is printed decides it, if it has to be
right whatever the buffer holds at first. -/
theorem mb64_encodes_iff (hm : ∀ n, malloc n = true) (hmode : Encodes argv fopen)
    (pieces : List Piece) (ending : Except String Unit) :
    (∀ buffer, PrintsAll malloc argv fopen pieces ending buffer ∧ InBounds pieces ending buffer ↔
      pieces.length ≤ 1 ∧ ending.isOk = true) ∧
    ((∀ buffer, PrintsAll malloc argv fopen pieces ending buffer) ↔
      pieces.length ≤ 1 ∧ ending.isOk = true) := by
  refine ⟨fun buffer => ⟨fun h => ?_, fun h => ?_⟩, fun hall => ?_, fun h buffer => ?_⟩
  · exact ⟨h.1.one_piece hm hmode h.2, (h.1.spec hm hmode).1⟩
  · exact printsAll_of_one_piece hm hmode h.1 h.2
  · have hzeros := hall ⟨List.replicate bufsize 0, List.length_replicate⟩
    exact ⟨one_piece_of_forall hm hmode hall, (hzeros.spec hm hmode).1⟩
  · exact (printsAll_of_one_piece hm hmode h.1 h.2).1

theorem mb64_encodes_two :
    ∃ e, main (fun _ => true) ["mb64", "-"] (.ok ())
        ⟨List.replicate bufsize 0, List.length_replicate⟩
        (deliver [⟨[104, 105], by decide⟩] (.ok ())) = e ∧
      e.stdout.head? = some (encodeList [104, 105] ++ line "\n") :=
  ⟨_, rfl, (((mb64_encodes_iff (fun _ => rfl : ∀ n, (fun _ : Nat => true) n = true)
    ⟨by decide, by decide, .inl (by decide)⟩ [⟨[104, 105], by decide⟩] (.ok ())).1
      ⟨List.replicate bufsize 0, List.length_replicate⟩).mpr ⟨by decide, rfl⟩).1⟩

/-- One byte a read: the second takes the place of the first. -/
theorem mb64_loses_input :
    ¬ ∀ (argv : List String) (fopen : Except String Unit), Encodes argv fopen →
      ∀ (pieces : List Piece) (ending : Except String Unit) (buffer : Buffer),
        PrintsAll (fun _ => true) argv fopen pieces ending buffer ∧
          InBounds pieces ending buffer := by
  intro h
  obtain ⟨_, v, hloop, hheld⟩ := h ["mb64", "-"] (.ok ()) ⟨by decide, by decide, .inl (by decide)⟩
    [⟨[104], by decide⟩, ⟨[105], by decide⟩] (.ok ())
    ⟨List.replicate bufsize 0, List.length_replicate⟩
  obtain ⟨_, hsize⟩ := readLoop_deliver rfl hloop
  rw [hsize] at hheld
  exact absurd hheld (by decide)

end Mikelibc.Mb64
