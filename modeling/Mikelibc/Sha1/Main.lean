import Mikelibc.Digest.Code
import Mikelibc.Hex.Digits

/-! # The tool `sha1`

`main` of `sha1.c` joins its arguments, computes their digest and prints it in hexadecimal. The size
of the joined string is an `unsigned int`, the results of `digest_sha1` and `tohex` are not looked
at, and what `tohex` returns is printed as a string. -/
namespace Mikelibc.Sha1
open CSem Digest Hex

/-! ## The code -/

def strcat (b : Block UInt8 1) (s : CString) : Outcome (Block UInt8 1) := do
  let t ← b.cstring
  Outcome.require (t.chars.length + s.chars.length < b.bytes)
  return b.write t.chars.length (s.chars ++ [0])

/-- `size += strlen(argv[i])`. -/
def addLength (size : UInt32) (arg : CString) : UInt32 := size + arg.strlen.toUInt32

/-- The second loop over the arguments: the first one is copied, the others are appended. -/
def joinArgs (input : Block UInt8 1) : List CString → Outcome (Block UInt8 1)
  | [] => return input
  | arg :: args => do
    let input ← input.strcpy arg
    args.foldlM strcat input

/-- `n` bytes from `i` on. -/
def readBytes (b : Block UInt8 1) : Nat → Nat → Outcome (List UInt8)
  | 0, _ => return []
  | n + 1, i => do
    let c ← b.load i
    let cs ← readBytes b n (i + 1)
    return c :: cs

def bytesAt (heap : Heap) (ptr : Option Int) (n : Nat) : Outcome (List UInt8) :=
  match ptr.bind heap.value with
  | some (.bytes b) => readBytes b n 0
  | _ => if n = 0 then return [] else .fault

def free (heap : Heap) : Option Int → Outcome Heap
  | none => return heap
  | some p => heap.release p

structure Exit where
  status : Int
  stdout : List UInt8
  stderr : List String
  heap : Heap

variable {δ : Type}

/-- `main` from the call of `digest_sha1` on. -/
def printDigest (md : EvpMd δ) (ctx : Bool) (malloc : Nat → Option (Nat → UInt8)) (size : UInt32)
    (input : Int) (s : CString) (heap : Heap) : Outcome Exit := do
  let r ← digestSha1 md ctx malloc s.chars s.strlen size heap
  let bytes ← bytesAt r.heap r.digest r.digestLen.toNat
  match ← tohex malloc bytes r.digestLen.toUInt64 with
  | none => .fault
  | some hexstring =>
    let hdigest := r.heap.next
    let heap := r.heap.issue (.bytes hexstring)
    let text ← hexstring.cstring
    let heap ← free heap r.digest
    let heap ← heap.release hdigest
    let heap ← heap.release input
    return ⟨0, text.chars ++ [10], [], heap⟩

def main (md : EvpMd δ) (ctx : Bool) (malloc : Nat → Option (Nat → UInt8)) (argv : List CString) :
    Outcome Exit :=
  if argv.length < 2 then
    return ⟨1, [], ["Usage: sha1 <space separated strings as input>\n"], .empty⟩
  else
    let args := argv.drop 1
    let size := args.foldl addLength 0 + 1
    match malloc size.toNat with
    | none => .abort
    | some contents => do
      let input := (Handles.empty : Heap).next
      let block ← joinArgs (Block.fresh size.toNat contents) args
      let s ← block.cstring
      printDigest md ctx malloc size input s ((Handles.empty : Heap).issue (.bytes block))

/-! ## The arguments -/

def joined (args : List CString) : List UInt8 := args.flatMap CString.chars

theorem joined_cons (arg : CString) (args : List CString) :
    joined (arg :: args) = arg.chars ++ joined args := List.flatMap_cons

theorem joined_noNul (args : List CString) : 0 ∉ joined args := by
  rw [joined, List.mem_flatMap]
  rintro ⟨arg, _, hzero⟩
  exact arg.noNul hzero

theorem size_eq (args : List CString) :
    (args.foldl addLength 0 + 1).toNat = ((joined args).length + 1) % 2 ^ 32 := by
  have hfold : ∀ (args : List CString) (size : UInt32),
      (args.foldl addLength size).toNat = (size.toNat + (joined args).length) % 2 ^ 32 := by
    intro args
    induction args with
    | nil => intro size; simp [joined, Nat.mod_eq_of_lt size.toNat_lt]
    | cons arg args ih =>
      intro size
      rw [List.foldl_cons, ih, joined_cons, List.length_append, addLength, UInt32.toNat_add,
        UInt64.toNat_toUInt32, CString.strlen_toNat]
      omega
  rw [UInt32.toNat_add, hfold, show (0 : UInt32).toNat = 0 from rfl,
    show (1 : UInt32).toNat = 1 from rfl]
  omega

section Copy
variable {b : Block UInt8 1} {t : CString}

theorem strcat_of {s : CString} (ht : b.Holds 0 (t.chars ++ [0]))
    (hfit : t.chars.length + s.chars.length < b.bytes) :
    ∃ b', strcat b s = .ok b' ∧ b'.bytes = b.bytes ∧ b'.Holds 0 (t.chars ++ s.chars ++ [0]) := by
  refine ⟨b.write t.chars.length (s.chars ++ [0]), ?_, rfl, ?_⟩
  · rw [strcat, Block.cstring_of t ht (by omega), Outcome.ok_bind, Outcome.require_of hfit]
    rfl
  · rw [List.append_assoc]
    refine Block.holds_append.mpr ⟨(Block.holds_append.mp ht).1.congr fun i _ hi => ?_, ?_⟩
    · exact if_neg (by omega)
    · rw [Nat.zero_add]
      exact Block.holds_write _ _ _

theorem strcat_past {s : CString} (ht : b.Holds 0 (t.chars ++ [0])) (hroom : t.chars.length < b.bytes)
    (hfit : ¬ t.chars.length + s.chars.length < b.bytes) : strcat b s = .fault := by
  rw [strcat, Block.cstring_of t ht hroom, Outcome.ok_bind, Outcome.require_of_not hfit]
  rfl

theorem foldlM_strcat (hb : b.bytes < 2 ^ 64) :
    ∀ (args : List CString) (b' : Block UInt8 1) (t : CString), b'.bytes = b.bytes →
      b'.Holds 0 (t.chars ++ [0]) → t.chars.length < b'.bytes →
      (t.chars.length + (joined args).length < b.bytes ∧ ∃ b'', args.foldlM strcat b' = .ok b'' ∧
        b''.bytes = b.bytes ∧ b''.Holds 0 (t.chars ++ joined args ++ [0])) ∨
      (¬ t.chars.length + (joined args).length < b.bytes ∧ args.foldlM strcat b' = .fault) := by
  intro args
  induction args with
  | nil =>
    intro b' t hsame ht hroom
    exact .inl ⟨by simpa [joined, ← hsame] using hroom, b', rfl, hsame, by simpa [joined] using ht⟩
  | cons arg args ih =>
    intro b' t hsame ht hroom
    rw [List.foldlM_cons, joined_cons, List.length_append]
    by_cases hfit : t.chars.length + arg.chars.length < b'.bytes
    · obtain ⟨c, hcat, hbytes, hholds⟩ := strcat_of ht hfit
      have hlen : (t.chars ++ arg.chars).length = t.chars.length + arg.chars.length :=
        List.length_append
      have hmore := ih c ⟨t.chars ++ arg.chars, by simp [t.noNul, arg.noNul], by omega⟩
        (hbytes.trans hsame) hholds (by rw [hlen, hbytes]; exact hfit)
      rw [hcat, Outcome.ok_bind]
      simp only [hlen, Nat.add_assoc, List.append_assoc] at hmore ⊢
      exact hmore
    · refine .inr ⟨by omega, ?_⟩
      rw [strcat_past ht hroom hfit]
      rfl

/-- The arguments are joined if there is room for all of them and the terminator. -/
theorem joinArgs_spec (hb : b.bytes < 2 ^ 64) {args : List CString} (hne : args ≠ []) :
    ((joined args).length < b.bytes ∧ ∃ b' s, joinArgs b args = .ok b' ∧ b'.cstring = .ok s ∧
      s.chars = joined args) ∨
    (¬ (joined args).length < b.bytes ∧ joinArgs b args = .fault) := by
  cases args with
  | nil => exact absurd rfl hne
  | cons arg args =>
    rw [joinArgs, joined_cons, List.length_append]
    by_cases hfit : arg.chars.length < b.bytes
    · rw [Block.strcpy_of hfit, Outcome.ok_bind]
      obtain ⟨hroom, b', hcat, hbytes, hholds⟩ | hpast := foldlM_strcat hb args
        (b.write 0 (arg.chars ++ [0])) arg rfl (Block.holds_write _ _ _) hfit
      · refine .inl ⟨hroom, b', ⟨arg.chars ++ joined args, ?_, ?_⟩, hcat,
          Block.cstring_of _ hholds ?_, rfl⟩
        · simp [arg.noNul, joined_noNul]
        · rw [List.length_append]; omega
        · rw [List.length_append]; omega
      · exact .inr hpast
    · rw [Block.strcpy_past hfit]
      exact .inr ⟨by omega, rfl⟩

end Copy

/-! ## The digest -/

theorem readBytes_of {b : Block UInt8 1} : ∀ {bytes : List UInt8} {i : Nat}, b.Holds i bytes →
    i + bytes.length ≤ b.bytes → readBytes b bytes.length i = .ok bytes := by
  intro bytes
  induction bytes with
  | nil => intro i _ _; rfl
  | cons c bytes ih =>
    intro i hholds hroom
    obtain ⟨hc, hrest⟩ := Block.holds_cons.mp hholds
    rw [List.length_cons] at hroom
    rw [List.length_cons, readBytes, Block.load_of (by unfold Block.Fits; omega) hc, Outcome.ok_bind,
      ih hrest (by omega)]
    rfl

variable {md : EvpMd δ} {ctx : Bool} {malloc : Nat → Option (Nat → UInt8)} {size : UInt32}
  {input : Int} {s : CString} {heap : Heap} {contents : Nat → UInt8} {exit : Exit}

/-- The string `tohex` returns, if there happens to be a NUL behind the digits. -/
theorem hexstring_cstring (contents : Nat → UInt8) (bytes : List UInt8)
    (hmax : bytes.length ≤ 2 ^ 30 - 1) :
    (contents (2 * bytes.length) = 0 → ∃ text, ((Block.fresh (2 * bytes.length + 1) contents).write 0
        (hexPairs lowerDigit bytes)).cstring = .ok text ∧ text.chars = hexPairs lowerDigit bytes) ∧
      (contents (2 * bytes.length) ≠ 0 → ((Block.fresh (2 * bytes.length + 1) contents).write 0
        (hexPairs lowerDigit bytes)).cstring = .fault) := by
  have hlen := @length_hexPairs lowerDigit bytes
  have hnul := zero_not_mem_hexPairs isHexDigits_lower bytes
  have hbehind := cell_behind contents bytes
  have hholds := Block.holds_write (Block.fresh (w := 1) (2 * bytes.length + 1) contents) 0
    (hexPairs lowerDigit bytes)
  constructor
  · intro hzero
    rw [hzero] at hbehind
    refine ⟨⟨_, hnul, by rw [hlen]; omega⟩, Block.cstring_of _ (Block.holds_append.mpr ⟨hholds, ?_⟩)
      ?_, rfl⟩
    · rw [hlen, Nat.zero_add]
      exact Block.holds_cons.mpr ⟨hbehind, Block.holds_nil _ _⟩
    · simp only [hlen, Block.write_bytes, Block.fresh]
      omega
  · intro hzero
    refine Block.cstring_unterminated fun i hi hcell => ?_
    simp only [Block.write_bytes, Block.fresh] at hi
    by_cases hlast : i = 2 * bytes.length
    · rw [hlast, hbehind] at hcell
      exact hzero (Option.some.inj hcell)
    · have hlt : i < (hexPairs lowerDigit bytes).length := by omega
      have hdigit := hholds.cell_lt hlt
      rw [Nat.zero_add, hcell] at hdigit
      exact hnul (Option.some.inj hdigit ▸ List.getElem_mem hlt)

/-- What is freed at the end: the digest, the string that was printed and the input. -/
theorem frees {heap' : Heap} {h : Int} {b : Object} (hleaves : heap.Leaves heap' (some (h, b)))
    (hinput : heap.value input ≠ none) (hexstring : Object) :
    ∃ heap₁ heap₂ last : Heap, free (heap'.issue hexstring) (some h) = .ok heap₁ ∧
      heap₁.release heap'.next = .ok heap₂ ∧ heap₂.release input = .ok last ∧
      last.live = heap.live.erase input := by
  obtain ⟨hlive, hnew⟩ := hleaves.live_some
  obtain ⟨hlive', hnew'⟩ := (Handles.Leaves.taken heap' hexstring).live_some
  have hlt : h < heap'.next := Handles.lt_next hleaves.value
  have hold : input < heap.next := (heap.given input hinput).2
  refine ⟨_, _, _, Handles.release_of ?_, Handles.release_of ?_, Handles.release_of ?_, ?_⟩
  · rw [Handles.value_issue, if_neg (Int.ne_of_lt hlt), hleaves.value]
    exact Option.some_ne_none b
  · rw [Handles.value_drop, if_neg (Int.ne_of_gt hlt), Handles.value_issue, if_pos rfl]
    exact Option.some_ne_none hexstring
  · have hnext := hleaves.next
    have hfresh : heap.next ≤ h := hleaves.fresh _ rfl
    rw [Handles.value_drop, if_neg (by omega), Handles.value_drop, if_neg (by omega),
      Handles.value_issue, if_neg (by omega), hleaves.old input hold]
    exact hinput
  · rw [Handles.live_drop, Handles.live_drop, Handles.live_drop, Finset.erase_right_comm (a := h),
      hlive', Finset.erase_insert hnew', hlive, Finset.erase_insert hnew]

theorem bytesAt_of {bytes : Vector UInt8 digestSize} {h : Int}
    (hvalue : heap.value h = some (.bytes (digestBlock contents bytes))) :
    bytesAt heap (some h) digestSize = .ok bytes.toList := by
  have hholds := Block.holds_write (Block.fresh (w := 1) digestSize contents) 0 bytes.toList
  have hread := readBytes_of hholds (by rw [Vector.length_toList]; exact Nat.le_refl _)
  rw [Vector.length_toList] at hread
  simp only [bytesAt, Option.bind_some, hvalue]
  exact hread

/-- `NULL`, and a pointer to what has been freed. -/
theorem bytesAt_fault {ptr : Option Int} {n : Nat} (hnone : ptr.bind heap.value = none)
    (hn : n ≠ 0) : bytesAt heap ptr n = .fault := by
  simp only [bytesAt, hnone, if_neg hn]

/-- The digest is printed. -/
theorem printDigest_of {bytes : Vector UInt8 digestSize} {c : Nat → UInt8}
    (hreturned : md.returns ctx malloc s.chars = some (some (digestBlock contents bytes)))
    (hc : malloc (2 * digestSize + 1) = some c) (hzero : c (2 * digestSize) = 0)
    (hinput : heap.value input ≠ none) :
    ∃ exit, printDigest md ctx malloc size input s heap = .ok exit ∧ exit.status = 0 ∧
      exit.stdout = hexPairs lowerDigit bytes.toList ++ [10] ∧
      exit.heap.live = heap.live.erase input := by
  obtain ⟨r, h, hcall, _, hleaves, hdigest, hlength⟩ :=
    digestSha1_spec md ctx malloc size heap s.fits
  rw [hreturned] at hleaves hdigest hlength
  change r.digest = some h at hdigest
  change r.digestLen = UInt32.ofNat digestSize at hlength
  have hlen : bytes.toList.length = digestSize := Vector.length_toList
  have hhex := tohex_eq malloc bytes.toList (by rw [hlen]; decide)
  rw [hlen, hc] at hhex
  obtain ⟨text, htext, hchars⟩ := (hexstring_cstring c bytes.toList
    (by rw [hlen]; decide)).1 (by rwa [hlen])
  rw [hlen] at htext
  obtain ⟨heap₁, heap₂, last, h₁, h₂, h₃, hlive⟩ := frees hleaves hinput
    (.bytes ((Block.fresh (2 * digestSize + 1) c).write 0 (hexPairs lowerDigit bytes.toList)))
  refine ⟨⟨0, text.chars ++ [10], [], last⟩, ?_, rfl, by rw [hchars], hlive⟩
  have hsize : (UInt32.ofNat digestSize).toNat = digestSize := rfl
  have hwide : (UInt32.ofNat digestSize).toUInt64 = UInt64.ofNat digestSize := rfl
  unfold printDigest
  rw [show s.strlen = UInt64.ofNat s.chars.length from rfl, hcall, Outcome.ok_bind, hdigest, hlength,
    hsize, bytesAt_of hleaves.value, Outcome.ok_bind, hwide, hhex, Outcome.ok_bind]
  simp only [Option.map_some, htext, Outcome.ok_bind, h₁, h₂, h₃]
  rfl

/-- Otherwise it is not. -/
theorem printDigest_ok (hsize : size ≠ 0) (h : printDigest md ctx malloc size input s heap = .ok exit) :
    ∃ b c, md.returns ctx malloc s.chars = some (some b) ∧ malloc (2 * digestSize + 1) = some c ∧
      c (2 * digestSize) = 0 := by
  obtain ⟨r, p, hcall, ⟨hnew, _⟩, hleaves, hdigest, hlength⟩ :=
    digestSha1_spec md ctx malloc size heap s.fits
  obtain ⟨r', hr', h⟩ := Outcome.bind_eq_ok.mp h
  cases hcall.symm.trans hr'
  obtain ⟨bytes, hbytes, h⟩ := Outcome.bind_eq_ok.mp h
  have hn : size.toNat ≠ 0 := fun h0 => hsize (UInt32.toNat_inj.mp h0)
  cases hreturned : md.returns ctx malloc s.chars with
  | none =>
    rw [hreturned] at hdigest hlength
    change r.digestLen = size at hlength
    rw [hdigest, hlength, bytesAt_fault rfl hn] at hbytes
    cases hbytes
  | some x =>
    rw [hreturned] at hleaves hdigest hlength
    cases x with
    | none =>
      have hfreed : (some p).bind r.heap.value = none :=
        Handles.Leaves.value_eq (x := none) hleaves hnew
      change r.digest = some p at hdigest
      change r.digestLen = size at hlength
      rw [hdigest, hlength, bytesAt_fault hfreed hn] at hbytes
      cases hbytes
    | some b =>
      obtain ⟨_, contents, digest, _, _, rfl⟩ := returns_eq_some.mp hreturned
      have hlen : digest.toList.length = digestSize := Vector.length_toList
      change r.digestLen = UInt32.ofNat digestSize at hlength
      rw [hdigest, hlength] at hbytes
      cases (bytesAt_of hleaves.value).symm.trans hbytes
      have hhex := tohex_eq malloc digest.toList (by rw [hlen]; decide)
      have hwide : (UInt32.ofNat digestSize).toUInt64 = UInt64.ofNat digestSize := rfl
      rw [hlen] at hhex
      rw [hlength] at h
      change (tohex malloc digest.toList (UInt64.ofNat digestSize) >>= _) = _ at h
      rw [hhex] at h
      cases hc : malloc (2 * digestSize + 1) with
      | none => rw [hc] at h; cases h
      | some c =>
        refine ⟨_, c, rfl, rfl, ?_⟩
        by_contra hzero
        simp only [hc, Option.map_some, Outcome.ok_bind] at h
        obtain ⟨text, htext, _⟩ := Outcome.bind_eq_ok.mp h
        have hfault := (hexstring_cstring c digest.toList
          (by rw [hlen]; decide)).2 (by rwa [hlen])
        rw [hlen, htext] at hfault
        cases hfault

/-! ## The program -/

/-- What has to go well for the digest of the text to be printed: `malloc` grants what is asked for,
and so does libcrypto, and the byte behind the digits happens to be a NUL. -/
structure Prints (md : EvpMd δ) (ctx : Bool) (malloc : Nat → Option (Nat → UInt8))
    (text : List UInt8) (bytes : Vector UInt8 digestSize) : Prop where
  fits : text.length + 1 < 2 ^ 32
  input : malloc (text.length + 1) ≠ none
  ctx : ctx = true
  digest : md.digest text = some bytes
  room : malloc digestSize ≠ none
  hex : ∃ contents, malloc (2 * digestSize + 1) = some contents ∧ contents (2 * digestSize) = 0

/-- A run gets to the call of `digest_sha1` exactly if there is room for the string. -/
theorem main_eq (md : EvpMd δ) (ctx : Bool) (malloc : Nat → Option (Nat → UInt8))
    {argv : List CString} (hargs : 2 ≤ argv.length) :
    (∃ (size : UInt32) (s : CString) (block : Block UInt8 1), size ≠ 0 ∧
      s.chars = joined (argv.drop 1) ∧ s.chars.length + 1 < 2 ^ 32 ∧
      malloc (s.chars.length + 1) ≠ none ∧ main md ctx malloc argv =
        printDigest md ctx malloc size 0 s ((Handles.empty : Heap).issue (.bytes block))) ∨
    ¬ ((joined (argv.drop 1)).length + 1 < 2 ^ 32 ∧
      malloc ((joined (argv.drop 1)).length + 1) ≠ none) ∧
        ∀ exit, main md ctx malloc argv ≠ .ok exit := by
  have hne : argv.drop 1 ≠ [] := fun hnil => by
    have := congrArg List.length hnil
    simp only [List.length_drop, List.length_nil] at this
    omega
  obtain ⟨size, hsize⟩ : ∃ size, size = (argv.drop 1).foldl addLength 0 + 1 := ⟨_, rfl⟩
  have hnat : size.toNat = ((joined (argv.drop 1)).length + 1) % 2 ^ 32 := hsize ▸ size_eq _
  simp only [main, if_neg (Nat.not_lt.mpr hargs), ← hsize]
  cases hm : malloc size.toNat with
  | none =>
    refine .inr ⟨fun ⟨hfits, hgrant⟩ => hgrant ?_, fun exit => nofun⟩
    rwa [← Nat.mod_eq_of_lt hfits, ← hnat]
  | some contents =>
    have hlt := size.toNat_lt
    obtain ⟨hroom, block, s, hjoin, hs, hchars⟩ | ⟨hroom, hjoin⟩ := joinArgs_spec
      (b := Block.fresh size.toNat contents) (by rw [Block.fresh_bytes]; omega) hne
    · rw [Block.fresh_bytes] at hroom
      have hfits : (joined (argv.drop 1)).length + 1 < 2 ^ 32 := by omega
      have hexact : size.toNat = (joined (argv.drop 1)).length + 1 := by omega
      refine .inl ⟨size, s, block, fun h0 => ?_, hchars, by rwa [hchars], ?_, ?_⟩
      · rw [h0] at hexact
        exact absurd hexact nofun
      · rw [hchars, ← hexact, hm]
        exact Option.some_ne_none contents
      · simp only [hjoin, hs, Outcome.ok_bind]
        rfl
    · rw [Block.fresh_bytes] at hroom
      simp only [hjoin, Outcome.fault_bind]
      exact .inr ⟨fun ⟨hfits, _⟩ => by omega, fun exit => nofun⟩

/-- **What `sha1` prints**, for any arguments: the digest of all of them joined, in hexadecimal. It
does so exactly if libcrypto and `malloc` grant what they are asked for, the size of the string is an
`unsigned int`, and a NUL happens to be behind the digits; and then it has freed all its memory. -/
theorem main_prints_iff {argv : List CString} (hargs : 2 ≤ argv.length) :
    ((∃ exit, main md ctx malloc argv = .ok exit) ↔
      ∃ bytes, Prints md ctx malloc (joined (argv.drop 1)) bytes) ∧
    ∀ exit bytes, main md ctx malloc argv = .ok exit →
      md.digest (joined (argv.drop 1)) = some bytes →
      exit.status = 0 ∧ exit.stdout = hexPairs lowerDigit bytes.toList ++ [10] ∧
        exit.heap.live = ∅ := by
  obtain ⟨size, s, block, hsize, hchars, hfits, hgrant, hmain⟩ | ⟨hroom, hmain⟩ :=
    main_eq md ctx malloc hargs
  · have hinput : ((Handles.empty : Heap).issue (.bytes block)).value 0 ≠ none := by
      rw [Handles.value_issue, Handles.next_empty, if_pos rfl]
      exact Option.some_ne_none _
    have hlive : ((Handles.empty : Heap).issue (.bytes block)).live.erase 0 = ∅ := by
      rw [(Handles.Leaves.taken _ _).live_some.1, Handles.live_empty, Handles.next_empty]
      rfl
    have hprints : ∀ bytes, Prints md ctx malloc s.chars bytes → ∃ exit,
        main md ctx malloc argv = .ok exit ∧ exit.status = 0 ∧
        exit.stdout = hexPairs lowerDigit bytes.toList ++ [10] ∧ exit.heap.live = ∅ := by
      rintro bytes ⟨_, _, hctx, hdigest, hroom, c, hc, hzero⟩
      obtain ⟨contents, hcontents⟩ := Option.ne_none_iff_exists'.mp hroom
      rw [hmain, ← hlive]
      exact printDigest_of (returns_eq_some.mpr ⟨hctx, contents, bytes, hcontents, hdigest, rfl⟩) hc
        hzero hinput
    have hback : ∀ exit, main md ctx malloc argv = .ok exit →
        ∃ bytes, Prints md ctx malloc s.chars bytes := by
      intro exit hok
      obtain ⟨b, c, hreturned, hc, hzero⟩ := printDigest_ok hsize (hmain ▸ hok)
      obtain ⟨hctx, contents, bytes, hcontents, hdigest, _⟩ := returns_eq_some.mp hreturned
      exact ⟨bytes, hfits, hgrant, hctx, hdigest, by rw [hcontents]; exact Option.some_ne_none _, c,
        hc, hzero⟩
    rw [← hchars]
    refine ⟨⟨fun ⟨exit, hok⟩ => hback exit hok, fun ⟨bytes, h⟩ => ?_⟩, fun exit bytes hok hdigest => ?_⟩
    · obtain ⟨exit, hok, _⟩ := hprints bytes h
      exact ⟨exit, hok⟩
    · obtain ⟨bytes', h⟩ := hback exit hok
      cases h.digest.symm.trans hdigest
      obtain ⟨exit', hok', hall⟩ := hprints bytes h
      cases hok.symm.trans hok'
      exact hall
  · refine ⟨⟨fun ⟨exit, hok⟩ => absurd hok (hmain exit), fun ⟨bytes, h⟩ => ?_⟩,
      fun exit _ hok => absurd hok (hmain exit)⟩
    exact absurd ⟨h.fits, h.input⟩ hroom

/-- Two arguments, with a digest that is all zeros. -/
theorem main_prints_two : ∃ exit,
    main (⟨some (), fun _ _ => some (), fun _ => some (Vector.replicate digestSize 0)⟩ : EvpMd Unit)
      true (fun _ => some fun _ => 0) [⟨[115], by decide, by decide⟩, ⟨[97, 98], by decide, by decide⟩,
        ⟨[99], by decide, by decide⟩] = .ok exit :=
  (main_prints_iff (by decide)).1.mpr ⟨Vector.replicate digestSize 0, by decide, nofun, rfl, rfl,
    nofun, fun _ => 0, rfl, rfl⟩

end Mikelibc.Sha1
