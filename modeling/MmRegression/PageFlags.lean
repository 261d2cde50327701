import Mathlib.Algebra.GroupWithZero.Nat
import Mathlib.Data.List.Nodup
import MmRegression.Fields
import MmRegression.Operation

/-! Page-flag specifications: `parse_bits_mask` and `bit_mask_ok` of `pfn.h`, and the mask and value
that `mm.sh` makes of the same text. -/
namespace MmRegression

open CInt

abbrev Word := BitVec 64

/- `page_flag_names`, the entries that are not null. -/
def pageFlagNames : List (Nat × Text) :=
  [(0,"L:locked"),(1,"E:error"),(2,"R:referenced"),(3,"U:uptodate"),(4,"D:dirty"),(5,"l:lru"),(6,"A:active"),
    (7,"S:slab"),(8,"W:writeback"),(9,"I:reclaim"),(10,"B:buddy"),(11,"M:mmap"),(12,"a:anonymous"),(13,"s:swapcache"),
    (14,"b:swapbacked"),(15,"H:compound_head"),(16,"T:compound_tail"),(17,"G:huge"),(18,"u:unevictable"),
    (19,"X:hwpoison"),(20,"n:nopage"),(21,"x:ksm"),(22,"t:thp"),(23,"o:balloon"),(24,"z:zero_page"),(25,"i:idle_page"),
    (32,"r:reserved"),(33,"m:mlocked"),(34,"d:mappedtodisk"),(35,"P:private"),(36,"p:private_2"),
    (37,"O:owner_private"),(38,"h:arch"),(39,"c:uncached"),(40,"f:softdirty"),(48,"I:readahead"),(49,"P:slob_free"),
    (50,"A:slub_frozen"),(51,"E:slub_debug"),(61,"F:file"),(62,"w:swap"),(63,"1:mmap_exclusive")].map
    (fun row => (row.1,row.2.toList))

def kpfAllBits : Word := BitVec.allOnes 64

def bit (i : Nat) : Word := BitVec.twoPow 64 i

/- `BIT(COMPOUND_HEAD)`. -/
def compoundHead : Word := bit 15

def bitsCompound : Word := bit 15 ||| bit 16

/- A filter is a pair of `opt_mask` and `opt_bits`. -/
abbrev BitFilter := Word × Word

def bitMaskOk (filters : List BitFilter) (flags : Word) : Bool :=
  filters.all (fun f => if f.2 = kpfAllBits then flags &&& f.1 != 0#64 else flags &&& f.1 == f.2)

def addBitsFilter (filters : List BitFilter) (mask bits : Word) : Except Stop (List BitFilter) :=
  if 1 ≤ filters.length then .error (.exited "too much bit filters\n".toList) else .ok (filters ++ [(mask,bits)])

/- `strtoll(t, NULL, 0)`. -/
def strtoll (t : Text) : Int :=
  match t.dropWhile isSpace with
  | '-'::u => max (-(constant u : Int)) (-9223372036854775808)
  | '+'::u => min (constant u) 9223372036854775807
  | u => min (constant u) 9223372036854775807

def parseNumber (str : Text) : Except Stop Word :=
  if strtoll str = 0 ∧ str.head? ≠ some '0' then .error (.exited ("invalid name or number: ".toList ++ (str ++ ['\n'])))
  else .ok (BitVec.ofInt 64 (strtoll str))

/- The first `len` characters are looked for at the start of a name, not as a whole name. -/
def flagOfName (name : Text) : Option Nat := (pageFlagNames.find? (fun f => startsWith name (f.2.drop 2))).map (·.1)

def parseFlagName (str : Text) (len : Nat) : Except Stop Word :=
  if str = [] ∨ len = 0 then .ok 0#64
  else if len ≤ 8 ∧ startsWith (str.take len) "compound".toList = true then .ok bitsCompound
  else match flagOfName (str.take len) with
    | some i => .ok (bit i)
    | none => parseNumber str

def nameEnds (c : Char) : Bool := c == ',' || c == '='

def nameLength (str : Text) : Nat := (str.takeWhile (fun c => !nameEnds c)).length

/- The rests of the text at which a name starts, after each comma up to an equals sign. -/
def nameStarts : Text → List Text
  | [] => []
  | c::cs => if c = '=' then [] else if c = ',' then cs :: nameStarts cs else nameStarts cs

def flagPart (all : Bool) (str : Text) : Except Stop Word :=
  match str with
  | '~'::rest => if all && !rest.isEmpty then parseFlagName rest (nameLength rest) else .ok 0#64
  | _ => parseFlagName str (nameLength str)

def parseFlagNames (str : Text) (all : Bool) : Except Stop Word :=
  (str :: nameStarts str).foldlM (fun flags s => (flagPart all s).map (flags ||| ·)) 0#64

def afterEqual (str : Text) : Text := (str.dropWhile (· != '=')).tail

def parseBitsMask (filters : List BitFilter) (optarg : Text) : Except Stop (List BitFilter) := do
  if optarg.head? = some '=' then
    let bits ← parseFlagNames optarg.tail false
    addBitsFilter filters kpfAllBits bits
  else if optarg.contains '=' then
    let mask ← parseFlagNames optarg false
    let bits ← parseFlagNames (afterEqual optarg) false
    addBitsFilter filters mask bits
  else if optarg.contains '~' then
    let mask ← parseFlagNames optarg true
    let bits ← parseFlagNames optarg false
    addBitsFilter filters mask bits
  else
    let mask ← parseFlagNames optarg false
    addBitsFilter filters mask kpfAllBits

/- The table that `mm.sh` writes to `environment/kpf_flags`. -/
def kpfFlags : List (Text × Nat) :=
  [("locked",0),("error",1),("referenced",2),("uptodate",3),("dirty",4),("lru",5),("active",6),("slab",7),
    ("writeback",8),("reclaim",9),("buddy",10),("mmap",11),("anonymous",12),("swapcache",13),("swapbacked",14),
    ("compound_head",15),("compound_tail",16),("huge",17),("unevictable",18),("hwpoison",19),("nopage",20),("ksm",21),
    ("thp",22),("offline",23),("pgtable",24),("zero_page",25),("idle_page",26),("reserved",32),("mlocked",33),
    ("mappedtodisk",34),("private",35),("private_2",36),("owner_private",37),("arch",38),("uncached",39),
    ("softdirty",40),("arch_2",41),("readahead",48),("slob_free",49),("slub_frozen",50),("slub_debug",51),("file",61),
    ("swap",62),("mmap_exclusive",63)].map (fun row => (row.1.toList,row.2))

def kpfRow (name : Text) : Option Nat := kpfFlags.lookup name

/- `mask2=$[mask2 + (1<<$flbit)]` for each name; a name without a row makes the expression fail. -/
def sumFlags (names : List Text) : Option Word :=
  names.foldlM (fun sum name => (kpfRow name).map (fun row => sum + bit row)) 0#64

def commaWords (t : Text) : List Text := words (t.map (fun c => if c = ',' then ' ' else c))

/- `cut -d=`: a line without the delimiter is every field. -/
def equalField (n : Nat) (line : Text) : Text :=
  if line.contains '=' then (split '=' line).getD (n-1) [] else line

def getBackendPageflagsMaskValue (flags : Text) : Option (Word × Word) :=
  if flags = [] then none
  else
    let mask := equalField 1 flags
    let value := if equalField 2 flags = [] then mask else equalField 2 flags
    match sumFlags (commaWords mask), sumFlags (commaWords value) with
    | some mask2, some value2 => some (mask2,value2)
    | _, _ => none

/- The names of both tables. -/
def sharedNames : List Text :=
  (kpfFlags.map (·.1)).filter (fun name => pageFlagNames.any (fun f => f.2.drop 2 == name))

def flagBit (name : Text) : Nat := (flagOfName name).getD 0

def rowBit (name : Text) : Nat := (kpfRow name).getD 0

structure SharedName (name : Text) : Prop where
  filled : name ≠ []
  clean : ∀ c ∈ name, c ≠ ',' ∧ c ≠ '=' ∧ c ≠ '~' ∧ c ≠ ' ' ∧ c ≠ '\t' ∧ c ≠ '\n'
  plain : ¬ (name.length ≤ 8 ∧ startsWith name "compound".toList = true)
  flag : flagOfName name = some (flagBit name)
  row : kpfRow name = some (rowBit name)
  smallFlag : flagBit name < 64
  smallRow : rowBit name < 64
  -- no flag of `pfn.h` has this bit, so no list of names is `KPF_ALL_BITS`
  hole : flagBit name ≠ 27

def specialChars : Text := [',','=','~',' ','\t','\n']

/- The shared names with their bits in `pfn.h` and in `mm.sh`. -/
def sharedRows : List (Text × Nat × Nat) :=
  [("locked",0,0),("error",1,1),("referenced",2,2),("uptodate",3,3),("dirty",4,4),("lru",5,5),("active",6,6),
    ("slab",7,7),("writeback",8,8),("reclaim",9,9),("buddy",10,10),("mmap",11,11),("anonymous",12,12),
    ("swapcache",13,13),("swapbacked",14,14),("compound_head",15,15),("compound_tail",16,16),("huge",17,17),
    ("unevictable",18,18),("hwpoison",19,19),("nopage",20,20),("ksm",21,21),("thp",22,22),("zero_page",24,25),
    ("idle_page",25,26),("reserved",32,32),("mlocked",33,33),("mappedtodisk",34,34),("private",35,35),
    ("private_2",36,36),("owner_private",37,37),("arch",38,38),("uncached",39,39),("softdirty",40,40),
    ("readahead",48,48),("slob_free",49,49),("slub_frozen",50,50),("slub_debug",51,51),("file",61,61),
    ("swap",13,62),("mmap_exclusive",63,63)].map (fun row => (row.1.toList,row.2))

theorem sharedTable : sharedNames.map (fun name => (name,flagOfName name,kpfRow name)) =
    sharedRows.map (fun row => (row.1,some row.2.1,some row.2.2)) := by decide +kernel

theorem sharedRow {name : Text} (mem : name ∈ sharedNames) : ∃ row ∈ sharedRows, row.1 = name ∧
    flagOfName name = some row.2.1 ∧ kpfRow name = some row.2.2 := by
  have inTable := List.mem_map_of_mem mem (f := fun name => (name,flagOfName name,kpfRow name))
  rw [sharedTable] at inTable
  obtain ⟨row,inside,same⟩ := List.mem_map.mp inTable
  obtain ⟨named,bits⟩ := Prod.mk.inj same
  obtain ⟨flag,place⟩ := Prod.mk.inj bits
  exact ⟨row,inside,named,flag.symm,place.symm⟩

/- What holds of every row holds of every shared name with its two bits. -/
theorem sharedRule {name : Text} (mem : name ∈ sharedNames) {good : Text × Nat × Nat → Bool}
    (every : sharedRows.all good = true) : good (name,flagBit name,rowBit name) = true := by
  obtain ⟨row,inside,named,flag,place⟩ := sharedRow mem
  have same : (name,flagBit name,rowBit name) = row := by
    rw [flagBit,rowBit,flag,place,← named]
    rfl
  rw [same]
  exact List.all_eq_true.mp every row inside

theorem sharedName {name : Text} (mem : name ∈ sharedNames) : SharedName name := by
  have checked : sharedRows.all (fun row => !row.1.isEmpty && row.1.all (fun c => !specialChars.contains c) &&
      !(decide (row.1.length ≤ 8) && startsWith row.1 "compound".toList) && decide (row.2.1 < 64) &&
      decide (row.2.2 < 64) && decide (row.2.1 ≠ 27)) = true := by decide +kernel
  have here := sharedRule mem checked
  simp only [Bool.and_eq_true,Bool.not_eq_true',decide_eq_true_eq] at here
  obtain ⟨⟨⟨⟨⟨filled,clean⟩,plain⟩,smallFlag⟩,smallRow⟩,hole⟩ := here
  obtain ⟨row,-,-,flag,place⟩ := sharedRow mem
  refine ⟨List.isEmpty_eq_false_iff.mp filled,?_,?_,?_,?_,smallFlag,smallRow,hole⟩
  · intro c inName
    have free := List.all_eq_true.mp clean c inName
    have apart : c ∉ specialChars := by
      intro inside
      rw [List.contains_iff_mem.mpr inside] at free
      exact Bool.false_ne_true free
    simpa only [specialChars,List.mem_cons,List.not_mem_nil,or_false,not_or] using apart
  · intro both
    rw [decide_eq_true both.1,both.2] at plain
    exact Bool.false_ne_true plain.symm
  · rw [flagBit,flag]
    rfl
  · rw [rowBit,place]
    rfl

theorem partShared {name : Text} (mem : name ∈ sharedNames) {rest : Text} (ends : ∀ c ∈ rest.head?, nameEnds c = true) :
    flagPart false (name ++ rest) = .ok (bit (flagBit name)) := by
  have good := sharedName mem
  have keep : ∀ c ∈ name, (!nameEnds c) = true := by
    intro c inName
    obtain ⟨comma,equal,-⟩ := good.clean c inName
    rw [nameEnds,beq_eq_false_iff_ne.mpr comma,beq_eq_false_iff_ne.mpr equal]
    rfl
  have stop : rest.takeWhile (fun c => !nameEnds c) = [] := by
    cases rest with
    | nil => rfl
    | cons c cs => exact List.takeWhile_cons_of_neg (by rw [ends c rfl]; decide)
  have length : nameLength (name ++ rest) = name.length := by
    rw [nameLength,List.takeWhile_append_of_pos keep,stop,List.append_nil]
  obtain ⟨c,cs,rfl⟩ := List.exists_cons_of_ne_nil good.filled
  have named : flagPart false ((c::cs) ++ rest) = parseFlagName ((c::cs) ++ rest) (nameLength ((c::cs) ++ rest)) := by
    rw [flagPart.eq_def]
    split
    · rename_i tilde
      exact absurd (List.cons.inj tilde).1 (good.clean c List.mem_cons_self).2.2.1
    · rfl
  rw [named,length,parseFlagName,List.take_left]
  rw [if_neg (show ¬ ((c::cs) ++ rest = [] ∨ (c::cs).length = 0) from fun empty => empty.elim nofun nofun),
    if_neg good.plain,
    good.flag]

def joinNames (names : List Text) : Text := List.intercalate [','] names

/- What `parse_flag_names` makes of a list of names. -/
def flagBits (names : List Text) : Word := names.foldr (fun name bits => bit (flagBit name) ||| bits) 0#64

theorem nameStartsSkip {name : Text} (clean : ∀ c ∈ name, c ≠ ',' ∧ c ≠ '=') (rest : Text) :
    nameStarts (name ++ rest) = nameStarts rest := by
  induction name with
  | nil => rfl
  | cons c cs ih =>
    obtain ⟨here,later⟩ := List.forall_mem_cons.mp clean
    rw [List.cons_append,nameStarts,if_neg here.2,if_neg here.1,ih later]

def addFlags (flags : Word) (str : Text) : Except Stop Word := (flagPart false str).map (flags ||| ·)

theorem foldShared {names : List Text} (filled : names ≠ []) (shared : ∀ n ∈ names, n ∈ sharedNames) {rest : Text}
    (ends : ∀ c ∈ rest.head?, c = '=') (flags : Word) :
    ((joinNames names ++ rest) :: nameStarts (joinNames names ++ rest)).foldlM addFlags flags =
      .ok (flags ||| flagBits names) := by
  induction names generalizing flags with
  | nil => exact absurd rfl filled
  | cons n ns ih =>
    obtain ⟨here,later⟩ := List.forall_mem_cons.mp shared
    have plain : ∀ c ∈ n, c ≠ ',' ∧ c ≠ '=' :=
      fun c mem => ⟨((sharedName here).clean c mem).1,((sharedName here).clean c mem).2.1⟩
    cases ns with
    | nil =>
      have finished : nameStarts rest = [] := by
        cases rest with
        | nil => rfl
        | cons c cs =>
          rw [ends c rfl,nameStarts,if_pos rfl]
      have last : ∀ c ∈ rest.head?, nameEnds c = true := by
        intro c mem
        rw [ends c mem]
        rfl
      rw [joinNames,List.intercalate_singleton,nameStartsSkip plain,finished,List.foldlM_cons,addFlags,
        partShared here last]
      simp only [flagBits,List.foldr_cons,List.foldr_nil,BitVec.or_zero]
      rfl
    | cons m ms =>
      have text : joinNames (n::m::ms) ++ rest = n ++ ',' :: (joinNames (m::ms) ++ rest) := by
        rw [joinNames,joinCons,joinNames,List.append_assoc,List.cons_append]
      have comma : ∀ c ∈ (',' :: (joinNames (m::ms) ++ rest)).head?, nameEnds c = true := by
        intro c mem
        cases Option.some.inj mem
        rfl
      rw [text,nameStartsSkip plain,nameStarts,if_neg (by decide),if_pos rfl,List.foldlM_cons,addFlags,
        partShared here comma]
      have tail := ih (List.cons_ne_nil m ms) later (flags ||| bit (flagBit n))
      rw [BitVec.or_assoc] at tail
      exact tail

theorem parseShared {names : List Text} (filled : names ≠ []) (shared : ∀ n ∈ names, n ∈ sharedNames) {rest : Text}
    (ends : ∀ c ∈ rest.head?, c = '=') : parseFlagNames (joinNames names ++ rest) false = .ok (flagBits names) := by
  have run := foldShared filled shared ends 0#64
  rw [BitVec.zero_or] at run
  exact run

/- A specification as the scripts write it: the mask, and the value where one is given. -/
def specification (mask : List Text) : Option (List Text) → Text
  | none => joinNames mask
  | some value => joinNames mask ++ '='::joinNames value

theorem joinFree {names : List Text} (shared : ∀ n ∈ names, n ∈ sharedNames) :
    '=' ∉ joinNames names ∧ '~' ∉ joinNames names := by
  constructor
  · intro mem
    rcases memJoin mem with comma | ⟨n,inside,found⟩
    · exact absurd comma (by decide)
    · exact ((sharedName (shared n inside)).clean _ found).2.1 rfl
  · intro mem
    rcases memJoin mem with comma | ⟨n,inside,found⟩
    · exact absurd comma (by decide)
    · exact ((sharedName (shared n inside)).clean _ found).2.2.1 rfl

theorem joinHead {names : List Text} (filled : names ≠ []) (shared : ∀ n ∈ names, n ∈ sharedNames) (rest : Text) :
    (joinNames names ++ rest).head? ≠ some '=' := by
  obtain ⟨n,ns,rfl⟩ := List.exists_cons_of_ne_nil filled
  obtain ⟨c,cs,rfl⟩ := List.exists_cons_of_ne_nil (sharedName (shared n List.mem_cons_self)).filled
  have first := ((sharedName (shared (c::cs) List.mem_cons_self)).clean c List.mem_cons_self).2.1
  cases ns with
  | nil =>
    rw [joinNames,List.intercalate_singleton]
    exact fun equal => first (Option.some.inj equal)
  | cons m ms =>
    rw [joinNames,joinCons]
    exact fun equal => first (Option.some.inj equal)

theorem parseMask {mask : List Text} (filled : mask ≠ []) (shared : ∀ n ∈ mask, n ∈ sharedNames) :
    parseBitsMask [] (specification mask none) = .ok [(flagBits mask,kpfAllBits)] := by
  have head := joinHead filled shared []
  have parsed := @parseShared mask filled shared [] nofun
  obtain ⟨noEqual,noTilde⟩ := joinFree shared
  rw [List.append_nil] at head parsed
  rw [parseBitsMask,specification,if_neg head,if_neg (mt List.contains_iff_mem.mp noEqual),
    if_neg (mt List.contains_iff_mem.mp noTilde),parsed]
  rfl

theorem parseMaskValue {mask value : List Text} (filled : mask ≠ []) (shared : ∀ n ∈ mask, n ∈ sharedNames)
    (filledValue : value ≠ []) (sharedValue : ∀ n ∈ value, n ∈ sharedNames) :
    parseBitsMask [] (specification mask (some value)) = .ok [(flagBits mask,flagBits value)] := by
  have head := joinHead filled shared ('='::joinNames value)
  have parsed := @parseShared mask filled shared ('='::joinNames value) (fun c mem => (Option.some.inj mem).symm)
  have parsedValue := @parseShared value filledValue sharedValue [] nofun
  have after : afterEqual (joinNames mask ++ '='::joinNames value) = joinNames value := by
    have before : ∀ c ∈ joinNames mask, (c != '=') = true := by
      intro c mem
      exact bne_iff_ne.mpr (fun same => (joinFree shared).1 (same ▸ mem))
    rw [afterEqual,List.dropWhile_append_of_pos before,List.dropWhile_cons_of_neg (by decide),List.tail_cons]
  rw [List.append_nil] at parsedValue
  rw [parseBitsMask,specification,if_neg head,if_pos (List.contains_iff_mem.mpr (by simp)),parsed,after]
  exact congrArg (· >>= addBitsFilter [] (flagBits mask)) parsedValue

/- The sum that the shell makes of the rows of a list of names, before it is cut to 64 bits. -/
def rowSum (names : List Text) : Nat := (names.map (fun name => 2^rowBit name)).sum

theorem sumShared {names : List Text} (shared : ∀ n ∈ names, n ∈ sharedNames) :
    sumFlags names = some (BitVec.ofNat 64 (rowSum names)) := by
  have run (sum : Word) : names.foldlM (fun sum name => (kpfRow name).map (fun row => sum + bit row)) sum =
      some (sum + BitVec.ofNat 64 (rowSum names)) := by
    induction names generalizing sum with
    | nil =>
      rw [rowSum,List.map_nil,List.sum_nil,BitVec.add_zero]
      rfl
    | cons n ns ih =>
      obtain ⟨here,later⟩ := List.forall_mem_cons.mp shared
      have power : bit (rowBit n) = BitVec.ofNat 64 (2^rowBit n) := by
        apply BitVec.eq_of_toNat_eq
        rw [bit,BitVec.toNat_twoPow,BitVec.toNat_ofNat]
      have split : rowSum (n::ns) = 2^rowBit n + rowSum ns := by rw [rowSum,List.map_cons,List.sum_cons,rowSum]
      rw [List.foldlM_cons,(sharedName here).row,split,BitVec.ofNat_add,← power,← BitVec.add_assoc]
      exact ih later _
  rw [sumFlags,run,BitVec.zero_add]

theorem commaJoin {names : List Text} (shared : ∀ n ∈ names, n ∈ sharedNames) :
    commaWords (joinNames names) = names := by
  have kept : names.map (List.map (fun c => if c = ',' then ' ' else c)) = names := by
    refine (List.map_congr_left (fun n mem => ?_)).trans (List.map_id names)
    refine (List.map_congr_left (fun c inName => ?_)).trans (List.map_id n)
    exact if_neg ((sharedName (shared n mem)).clean c inName).1
  rw [commaWords,joinNames,mapJoin,if_pos rfl,kept]
  apply wordsJoin
  intro n mem
  have good := sharedName (shared n mem)
  exact ⟨good.filled,fun c inName => (good.clean c inName).2.2.2⟩

theorem joinFilled {names : List Text} (filled : names ≠ []) (shared : ∀ n ∈ names, n ∈ sharedNames) :
    joinNames names ≠ [] := by
  obtain ⟨n,ns,rfl⟩ := List.exists_cons_of_ne_nil filled
  have here := (sharedName (shared n List.mem_cons_self)).filled
  cases ns with
  | nil =>
    rw [joinNames,List.intercalate_singleton]
    exact here
  | cons m ms =>
    rw [joinNames,joinCons]
    exact List.append_ne_nil_of_left_ne_nil here _

theorem shellMask {mask : List Text} (filled : mask ≠ []) (shared : ∀ n ∈ mask, n ∈ sharedNames) :
    getBackendPageflagsMaskValue (specification mask none) =
      some (BitVec.ofNat 64 (rowSum mask),BitVec.ofNat 64 (rowSum mask)) := by
  have some := joinFilled filled shared
  have whole (n : Nat) : equalField n (joinNames mask) = joinNames mask :=
    if_neg (mt List.contains_iff_mem.mp (joinFree shared).1)
  simp only [getBackendPageflagsMaskValue,specification,if_neg some,whole,commaJoin shared,sumShared shared]

theorem shellMaskValue {mask value : List Text} (filled : mask ≠ []) (shared : ∀ n ∈ mask, n ∈ sharedNames)
    (filledValue : value ≠ []) (sharedValue : ∀ n ∈ value, n ∈ sharedNames) :
    getBackendPageflagsMaskValue (specification mask (some value)) =
      some (BitVec.ofNat 64 (rowSum mask),BitVec.ofNat 64 (rowSum value)) := by
  have someText := List.append_ne_nil_of_left_ne_nil (joinFilled filled shared) ('='::joinNames value)
  have someValue := joinFilled filledValue sharedValue
  have fields : split '=' (joinNames mask ++ '='::joinNames value) = [joinNames mask,joinNames value] := by
    rw [splitCons (joinFree shared).1,splitClean (joinFree sharedValue).1]
  have equal : (joinNames mask ++ '='::joinNames value).contains '=' = true := List.contains_iff_mem.mpr (by simp)
  have first : equalField 1 (joinNames mask ++ '='::joinNames value) = joinNames mask := by
    rw [equalField,if_pos equal,fields]
    rfl
  have second : equalField 2 (joinNames mask ++ '='::joinNames value) = joinNames value := by
    rw [equalField,if_pos equal,fields]
    rfl
  simp only [getBackendPageflagsMaskValue,specification,if_neg someText,first,second,if_neg someValue,commaJoin shared,
    commaJoin sharedValue,sumShared shared,sumShared sharedValue]

theorem flagBitsAt {names : List Text} (shared : ∀ n ∈ names, n ∈ sharedNames) (i : Nat) :
    (flagBits names).getLsbD i = true ↔ ∃ n ∈ names, flagBit n = i := by
  induction names with
  | nil => simp [flagBits]
  | cons n ns ih =>
    obtain ⟨here,later⟩ := List.forall_mem_cons.mp shared
    have step : flagBits (n::ns) = bit (flagBit n) ||| flagBits ns := rfl
    rw [step,BitVec.getLsbD_or,Bool.or_eq_true,ih later,bit,BitVec.getLsbD_twoPow,List.exists_mem_cons_iff,
      Bool.and_eq_true,
      decide_eq_true_eq,decide_eq_true_eq,and_iff_right (sharedName here).smallFlag]

theorem rowSumAt (names : List Text) (i : Nat) :
    (BitVec.ofNat 64 (rowSum names)).getLsbD i = true ↔ i < 64 ∧ (rowSum names).testBit i = true := by
  rw [BitVec.getLsbD_ofNat,Bool.and_eq_true,decide_eq_true_eq]

section Words

variable {n : Nat} {m v m' v' : BitVec n}

/- A selected word stays selected when one of its bits is turned, if that bit is not in the mask. -/
theorem flipOutside {i : Nat} {u : BitVec n} (small : i < n) (selected : u &&& m = v) :
    (u ^^^ BitVec.twoPow n i) &&& m = v ↔ m.getLsbD i = false := by
  rw [← selected]
  constructor
  · intro equal
    have here := congrArg (·.getLsbD i) equal
    simp only [BitVec.getLsbD_and,BitVec.getLsbD_xor,BitVec.getLsbD_twoPow,small] at here
    cases set : m.getLsbD i with
    | false => rfl
    | true =>
      rw [set] at here
      simp at here
  · intro clear
    apply BitVec.eq_of_getLsbD_eq
    intro j smallJ
    simp only [BitVec.getLsbD_and,BitVec.getLsbD_xor,BitVec.getLsbD_twoPow,small]
    by_cases same : i = j
    · subst same
      rw [clear,Bool.and_false,Bool.and_false]
    · simp [same]

/- Two masked comparisons select the same words when they are the same, or when neither selects any. -/
theorem sameComparison : (∀ w, w &&& m = v ↔ w &&& m' = v') ↔ (m = m' ∧ v = v') ∨ (v &&& m ≠ v ∧ v' &&& m' ≠ v') := by
  constructor
  · intro same
    by_cases inside : v &&& m = v
    · have image : v &&& m' = v' := (same v).mp inside
      have masks : m = m' := by
        apply BitVec.eq_of_getLsbD_eq
        intro i small
        have turned := same (v ^^^ BitVec.twoPow n i)
        rw [flipOutside small inside,flipOutside small image] at turned
        exact Bool.eq_iff_iff.mpr (by simpa only [Bool.eq_false_iff,not_iff_not] using turned)
      exact .inl ⟨masks,by rw [← image,← masks,inside]⟩
    · refine .inr ⟨inside,fun inside' => inside ?_⟩
      have reached := (same v').mpr inside'
      rw [← reached,BitVec.and_assoc,BitVec.and_self]
  · intro alike w
    rcases alike with ⟨rfl,rfl⟩ | ⟨empty,empty'⟩
    · rfl
    · refine iff_of_false (fun reached => empty ?_) (fun reached => empty' ?_)
      · rw [← reached,BitVec.and_assoc,BitVec.and_self]
      · rw [← reached,BitVec.and_assoc,BitVec.and_self]

theorem powerNonzero {i : Nat} (small : i < n) : BitVec.twoPow n i ≠ 0#n := by
  intro equal
  have here := congrArg (·.getLsbD i) equal
  simp [small] at here

theorem powerInjective {i j : Nat} (small : i < n) (same : BitVec.twoPow n i = BitVec.twoPow n j) : j = i := by
  have here := congrArg (·.getLsbD i) same
  simp only [BitVec.getLsbD_twoPow,small,decide_true,Bool.and_true] at here
  exact (of_decide_eq_true (Bool.and_eq_true_iff.mp here.symm).2)

theorem someBit {x : BitVec n} (nonzero : x ≠ 0#n) : ∃ i < n, x.getLsbD i = true := by
  by_contra none
  apply nonzero
  apply BitVec.eq_of_getLsbD_eq
  intro i small
  rw [BitVec.getLsbD_zero]
  by_contra set
  exact none ⟨i,small,Bool.eq_true_of_not_eq_false set⟩

/- All bits of one mask and any bit of another are one condition for masks of one same bit only. -/
theorem allAny : (∀ w, w &&& m = m ↔ w &&& m' ≠ 0#n) ↔ ∃ i < n, m = BitVec.twoPow n i ∧ m' = BitVec.twoPow n i := by
  constructor
  · intro same
    have nonzero : m ≠ 0#n := by
      rintro rfl
      exact (same 0#n).mp (BitVec.and_zero) (BitVec.zero_and)
    have nonzero' : m' ≠ 0#n := by
      intro zero
      have all := (same (BitVec.allOnes n)).mp BitVec.allOnes_and
      rw [zero,BitVec.and_zero] at all
      exact all rfl
    have single {i : Nat} (small : i < n) (set : m'.getLsbD i = true) : m = BitVec.twoPow n i := by
      have meets : BitVec.twoPow n i &&& m' ≠ 0#n := by
        rw [BitVec.twoPow_and,if_pos set]
        exact powerNonzero small
      have covers := (same _).mpr meets
      rw [BitVec.twoPow_and] at covers
      split at covers
      · exact covers.symm
      · exact absurd covers.symm nonzero
    obtain ⟨i,small,set⟩ := someBit nonzero'
    refine ⟨i,small,single small set,?_⟩
    apply BitVec.eq_of_getLsbD_eq
    intro j smallJ
    rw [BitVec.getLsbD_twoPow,decide_eq_true small,Bool.true_and]
    by_cases here : i = j
    · rw [← here,set,decide_eq_true rfl]
    · rw [decide_eq_false here]
      by_contra other
      have both := (single small set).symm.trans (single smallJ (Bool.eq_true_of_not_eq_false other))
      exact here (powerInjective small both).symm
  · rintro ⟨i,small,rfl,rfl⟩ w
    rw [BitVec.and_twoPow]
    split
    · exact iff_of_true rfl (powerNonzero small)
    · exact iff_of_false (fun equal => powerNonzero small equal.symm) (fun differ => differ rfl)

end Words

/- The digits of the shell's sum are the bits that `pfn.h` gives to the names. -/
def SumIsBits (names : List Text) : Prop :=
  ∀ i < 64, (rowSum names).testBit i = true ↔ ∃ n ∈ names, flagBit n = i

def OneBit (names : List Text) : Prop := ∀ a ∈ names, ∀ b ∈ names, flagBit a = flagBit b

def SumOutside (mask value : List Text) : Prop :=
  ∃ i < 64, (rowSum value).testBit i = true ∧ (rowSum mask).testBit i = false

def BitOutside (mask value : List Text) : Prop := ∃ b ∈ value, ∀ a ∈ mask, flagBit a ≠ flagBit b

/- Both sides of a specification without a value select by one bit, and both sides of one with a
value have the same bits, unless neither can select a page. -/
def TablesAgree (mask : List Text) : Option (List Text) → Prop
  | none => SumIsBits mask ∧ OneBit mask
  | some value => (SumIsBits mask ∧ SumIsBits value) ∨ (SumOutside mask value ∧ BitOutside mask value)

/- The names that the two tables give different bits. -/
def movedNames : List Text := ["zero_page".toList,"idle_page".toList,"swap".toList]

/- The same for a specification that repeats no name. -/
def NamesAgree (mask : List Text) : Option (List Text) → Prop
  | none => ∃ name, mask = [name] ∧ name ∉ movedNames
  | some value => (∀ name ∈ mask ++ value, name ∉ movedNames) ∨ BitOutside mask value

def shellSelects (spec : Text) (w : Word) : Prop :=
  ∃ pair, getBackendPageflagsMaskValue spec = some pair ∧ w &&& pair.1 = pair.2

def toolSelects (spec : Text) (w : Word) : Prop :=
  ∃ filters, parseBitsMask [] spec = .ok filters ∧ bitMaskOk filters w = true

theorem oneFilter (mask bits w : Word) :
    bitMaskOk [(mask,bits)] w = true ↔ if bits = kpfAllBits then w &&& mask ≠ 0#64 else w &&& mask = bits := by
  simp only [bitMaskOk,List.all_cons,List.all_nil,Bool.and_true]
  split <;> simp

section Agreement

variable {names mask value : List Text}

theorem sumIsBits (shared : ∀ n ∈ names, n ∈ sharedNames) :
    BitVec.ofNat 64 (rowSum names) = flagBits names ↔ SumIsBits names := by
  constructor
  · intro same i small
    have here := congrArg (fun w : Word => w.getLsbD i = true) same
    rw [rowSumAt,flagBitsAt shared,and_iff_right small] at here
    exact iff_of_eq here
  · intro digits
    apply BitVec.eq_of_getLsbD_eq
    intro i small
    rw [Bool.eq_iff_iff,rowSumAt,flagBitsAt shared,and_iff_right small]
    exact digits i small

theorem notAllBits (shared : ∀ n ∈ names, n ∈ sharedNames) : flagBits names ≠ kpfAllBits := by
  intro all
  have here := congrArg (·.getLsbD 27) all
  have set : kpfAllBits.getLsbD 27 = true := by decide
  obtain ⟨n,mem,hole⟩ := (flagBitsAt shared 27).mp (here.trans set)
  exact (sharedName (shared n mem)).hole hole

theorem maskMeaning (filled : mask ≠ []) (shared : ∀ n ∈ mask, n ∈ sharedNames) :
    (∀ w, shellSelects (specification mask none) w ↔ toolSelects (specification mask none) w) ↔
      TablesAgree mask none := by
  have shell (w : Word) : shellSelects (specification mask none) w ↔
      w &&& BitVec.ofNat 64 (rowSum mask) = BitVec.ofNat 64 (rowSum mask) := by
    rw [shellSelects,shellMask filled shared]
    simp
  have tool (w : Word) : toolSelects (specification mask none) w ↔ w &&& flagBits mask ≠ 0#64 := by
    rw [toolSelects,parseMask filled shared]
    simp only [Except.ok.injEq,exists_eq_left',oneFilter,if_true]
  simp only [shell,tool]
  rw [allAny,TablesAgree,← sumIsBits shared]
  constructor
  · rintro ⟨i,small,sum,bits⟩
    refine ⟨sum.trans bits.symm,?_⟩
    have only : ∀ a ∈ mask, flagBit a = i := by
      intro a mem
      have set := (flagBitsAt shared (flagBit a)).mpr ⟨a,mem,rfl⟩
      rw [bits,BitVec.getLsbD_twoPow,Bool.and_eq_true,decide_eq_true_eq,decide_eq_true_eq] at set
      exact set.2.symm
    exact fun a inA b inB => (only a inA).trans (only b inB).symm
  · intro both
    obtain ⟨same,one⟩ := both
    obtain ⟨a,rest,rfl⟩ := List.exists_cons_of_ne_nil filled
    have small := (sharedName (shared a List.mem_cons_self)).smallFlag
    have bits : flagBits (a::rest) = BitVec.twoPow 64 (flagBit a) := by
      apply BitVec.eq_of_getLsbD_eq
      intro j smallJ
      rw [Bool.eq_iff_iff,flagBitsAt shared,BitVec.getLsbD_twoPow,decide_eq_true small,Bool.true_and,decide_eq_true_eq]
      exact ⟨fun found => found.elim (fun b inside => (one a List.mem_cons_self b inside.1).trans inside.2),
        fun same => ⟨a,List.mem_cons_self,same⟩⟩
    exact ⟨flagBit a,small,same.trans bits,bits⟩

theorem outsideMask {x y : Word} : y &&& x ≠ y ↔ ∃ i < 64, y.getLsbD i = true ∧ x.getLsbD i = false := by
  constructor
  · intro differ
    by_contra none
    apply differ
    apply BitVec.eq_of_getLsbD_eq
    intro i small
    rw [BitVec.getLsbD_and]
    cases set : y.getLsbD i with
    | false => rfl
    | true =>
      rw [Bool.true_and]
      by_contra clear
      exact none ⟨i,small,set,Bool.eq_false_iff.mpr clear⟩
  · rintro ⟨i,-,set,clear⟩ same
    have here := congrArg (·.getLsbD i) same
    simp only [BitVec.getLsbD_and,set,clear] at here
    contradiction

theorem maskValueMeaning (filled : mask ≠ []) (shared : ∀ n ∈ mask, n ∈ sharedNames) (filledValue : value ≠ [])
    (sharedValue : ∀ n ∈ value, n ∈ sharedNames) :
    (∀ w, shellSelects (specification mask (some value)) w ↔ toolSelects (specification mask (some value)) w) ↔
      TablesAgree mask (some value) := by
  have shell (w : Word) : shellSelects (specification mask (some value)) w ↔
      w &&& BitVec.ofNat 64 (rowSum mask) = BitVec.ofNat 64 (rowSum value) := by
    rw [shellSelects,shellMaskValue filled shared filledValue sharedValue]
    simp
  have tool (w : Word) : toolSelects (specification mask (some value)) w ↔ w &&& flagBits mask = flagBits value := by
    rw [toolSelects,parseMaskValue filled shared filledValue sharedValue]
    simp only [Except.ok.injEq,exists_eq_left',oneFilter,if_neg (notAllBits sharedValue)]
  have sums : BitVec.ofNat 64 (rowSum value) &&& BitVec.ofNat 64 (rowSum mask) ≠ BitVec.ofNat 64 (rowSum value) ↔
      SumOutside mask value := by
    rw [outsideMask,SumOutside]
    refine exists_congr (fun i => and_congr_right (fun small => ?_))
    rw [rowSumAt,and_iff_right small,BitVec.getLsbD_ofNat,decide_eq_true small,Bool.true_and]
  have bits : flagBits value &&& flagBits mask ≠ flagBits value ↔ BitOutside mask value := by
    rw [outsideMask,BitOutside]
    constructor
    · rintro ⟨i,-,set,clear⟩
      obtain ⟨b,mem,rfl⟩ := (flagBitsAt sharedValue i).mp set
      refine ⟨b,mem,?_⟩
      intro a inMask same
      rw [(flagBitsAt shared _).mpr ⟨a,inMask,same⟩] at clear
      contradiction
    · rintro ⟨b,mem,apart⟩
      refine ⟨flagBit b,(sharedName (sharedValue b mem)).smallFlag,(flagBitsAt sharedValue _).mpr ⟨b,mem,rfl⟩,?_⟩
      rw [Bool.eq_false_iff]
      intro set
      obtain ⟨a,inMask,same⟩ := (flagBitsAt shared _).mp set
      exact apart a inMask same
  simp only [shell,tool]
  rw [sameComparison,TablesAgree,← sumIsBits shared,← sumIsBits sharedValue,sums,bits]

theorem rowsDistinct {n m : Text} (left : n ∈ sharedNames) (right : m ∈ sharedNames) (same : rowBit n = rowBit m) :
    n = m := by
  have checked : sharedRows.all (fun row => sharedRows.all (fun other => row.2.2 != other.2.2 || row.1 == other.1)) =
      true := by decide +kernel
  have first := sharedRule left checked
  dsimp only at first
  have both := sharedRule right first
  rw [same,bne_self_eq_false,Bool.false_or] at both
  exact eq_of_beq both

/- Rows without repetition do not carry, so the sum is made of them. -/
theorem distinctRows (shared : ∀ n ∈ names, n ∈ sharedNames) (distinct : names.Nodup) (i : Nat) :
    (BitVec.ofNat 64 (rowSum names)).getLsbD i = true ↔ ∃ n ∈ names, rowBit n = i := by
  induction names generalizing i with
  | nil => simp [rowSum]
  | cons n ns ih =>
    obtain ⟨here,later⟩ := List.forall_mem_cons.mp shared
    obtain ⟨fresh,rest⟩ := List.nodup_cons.mp distinct
    have power : BitVec.ofNat 64 (2^rowBit n) = BitVec.twoPow 64 (rowBit n) := by
      apply BitVec.eq_of_toNat_eq
      rw [BitVec.toNat_twoPow,BitVec.toNat_ofNat]
    have clear : (BitVec.ofNat 64 (rowSum ns)).getLsbD (rowBit n) = false := by
      rw [Bool.eq_false_iff]
      intro set
      obtain ⟨m,mem,same⟩ := (ih later rest _).mp set
      rw [rowsDistinct here (later m mem) same.symm] at fresh
      exact fresh mem
    have split : rowSum (n::ns) = 2^rowBit n + rowSum ns := by rw [rowSum,List.map_cons,List.sum_cons,rowSum]
    have apart : BitVec.twoPow 64 (rowBit n) &&& BitVec.ofNat 64 (rowSum ns) = 0#64 := by
      rw [BitVec.twoPow_and,if_neg (by rw [clear]; decide)]
    rw [split,BitVec.ofNat_add,power,BitVec.add_eq_or_of_and_eq_zero _ _ apart,BitVec.getLsbD_or,Bool.or_eq_true,
      ih later rest,BitVec.getLsbD_twoPow,List.exists_mem_cons_iff,Bool.and_eq_true,decide_eq_true_eq,decide_eq_true_eq,
      and_iff_right (sharedName here).smallRow]

theorem keptBit {n : Text} (mem : n ∈ sharedNames) (kept : n ∉ movedNames) : flagBit n = rowBit n := by
  have checked : sharedRows.all (fun row => movedNames.contains row.1 || row.2.1 == row.2.2) = true := by decide +kernel
  have here := sharedRule mem checked
  rw [Bool.or_eq_true] at here
  rcases here with moved | same
  · exact absurd (List.contains_iff_mem.mp moved) kept
  · exact eq_of_beq same

/- A moved name has a row that is no flag's bit, or a bit that is no name's row. -/
theorem movedBit {n : Text} (mem : n ∈ sharedNames) (moved : n ∈ movedNames) :
    (∀ m ∈ sharedNames, flagBit m ≠ rowBit n) ∨ ∀ m ∈ sharedNames, rowBit m ≠ flagBit n := by
  have checked : sharedRows.all (fun row => !movedNames.contains row.1 ||
      (sharedRows.all (fun other => other.2.1 != row.2.2) || sharedRows.all (fun other => other.2.2 != row.2.1))) =
        true := by decide +kernel
  have here := sharedRule mem checked
  dsimp only at here
  rw [List.contains_iff_mem.mpr moved,Bool.not_true,Bool.false_or,Bool.or_eq_true] at here
  refine here.imp (fun all m inside => ?_) (fun all m inside => ?_)
  · exact bne_iff_ne.mp (sharedRule inside all)
  · exact bne_iff_ne.mp (sharedRule inside all)

theorem sumIsBitsNames (shared : ∀ n ∈ names, n ∈ sharedNames) (distinct : names.Nodup) :
    SumIsBits names ↔ ∀ n ∈ names, n ∉ movedNames := by
  have digit (i : Nat) (small : i < 64) : (rowSum names).testBit i = true ↔ ∃ n ∈ names, rowBit n = i := by
    rw [← distinctRows shared distinct i,rowSumAt,and_iff_right small]
  constructor
  · intro digits n mem moved
    have good := sharedName (shared n mem)
    rcases movedBit (shared n mem) moved with noFlag | noRow
    · obtain ⟨m,inside,same⟩ := (digits _ good.smallRow).mp ((digit _ good.smallRow).mpr ⟨n,mem,rfl⟩)
      exact noFlag m (shared m inside) same
    · obtain ⟨m,inside,same⟩ := (digit _ good.smallFlag).mp ((digits _ good.smallFlag).mpr ⟨n,mem,rfl⟩)
      exact noRow m (shared m inside) same
  · intro kept i small
    rw [digit i small]
    refine exists_congr (fun n => and_congr_right (fun mem => ?_))
    rw [keptBit (shared n mem) (kept n mem)]

theorem namesAgreeMask (filled : mask ≠ []) (shared : ∀ n ∈ mask, n ∈ sharedNames) (distinct : mask.Nodup) :
    TablesAgree mask none ↔ NamesAgree mask none := by
  rw [TablesAgree,NamesAgree,sumIsBitsNames shared distinct]
  constructor
  · intro both
    obtain ⟨kept,one⟩ := both
    obtain ⟨a,rest,rfl⟩ := List.exists_cons_of_ne_nil filled
    cases rest with
    | nil => exact ⟨a,rfl,kept a List.mem_cons_self⟩
    | cons b rest =>
      have inB : b ∈ a::b::rest := List.mem_cons_of_mem a List.mem_cons_self
      have rows : rowBit a = rowBit b := by
        rw [← keptBit (shared a List.mem_cons_self) (kept a List.mem_cons_self),← keptBit (shared b inB) (kept b inB)]
        exact one a List.mem_cons_self b inB
      have same := rowsDistinct (shared a List.mem_cons_self) (shared b inB) rows
      rw [same] at distinct
      exact absurd List.mem_cons_self (List.nodup_cons.mp distinct).1
  · rintro ⟨name,rfl,kept⟩
    refine ⟨List.forall_mem_singleton.mpr kept,?_⟩
    intro a inA b inB
    rw [List.mem_singleton.mp inA,List.mem_singleton.mp inB]

theorem namesAgreeValue (shared : ∀ n ∈ mask, n ∈ sharedNames) (sharedValue : ∀ n ∈ value, n ∈ sharedNames)
    (distinct : mask.Nodup) (distinctValue : value.Nodup) :
    TablesAgree mask (some value) ↔ NamesAgree mask (some value) := by
  rw [TablesAgree,NamesAgree,sumIsBitsNames shared distinct,sumIsBitsNames sharedValue distinctValue,
    ← List.forall_mem_append]
  refine or_congr_right ⟨And.right,fun outside => ⟨?_,outside⟩⟩
  obtain ⟨b,mem,apart⟩ := outside
  have small := (sharedName (sharedValue b mem)).smallRow
  have set := (distinctRows sharedValue distinctValue (rowBit b)).mpr ⟨b,mem,rfl⟩
  refine ⟨rowBit b,small,((rowSumAt _ _).mp set).2,?_⟩
  rw [Bool.eq_false_iff]
  intro inMask
  obtain ⟨a,memA,same⟩ := (distinctRows shared distinct (rowBit b)).mp ((rowSumAt _ _).mpr ⟨small,inMask⟩)
  rw [rowsDistinct (shared a memA) (sharedValue b mem) same] at memA
  exact apart b memA rfl

end Agreement

/- Shell and tool select the same pages by a specification exactly where the tables agree on it; when
it repeats no name, that is a question of the names alone. -/
theorem specificationsAgree {mask : List Text} (value : Option (List Text)) (filled : mask ≠ [])
    (shared : ∀ n ∈ mask, n ∈ sharedNames) (values : ∀ v ∈ value, v ≠ [] ∧ ∀ n ∈ v, n ∈ sharedNames) :
    ((∀ w, shellSelects (specification mask value) w ↔ toolSelects (specification mask value) w) ↔
      TablesAgree mask value) ∧
      (mask.Nodup → (∀ v ∈ value, v.Nodup) → (TablesAgree mask value ↔ NamesAgree mask value)) := by
  cases value with
  | none => exact ⟨maskMeaning filled shared,fun distinct _ => namesAgreeMask filled shared distinct⟩
  | some value =>
    obtain ⟨filledValue,sharedValue⟩ := values value rfl
    exact ⟨maskValueMeaning filled shared filledValue sharedValue,fun distinct distinctValue =>
      namesAgreeValue shared sharedValue distinct (distinctValue value rfl)⟩

def zeroMask : List Text := ["thp".toList,"zero_page".toList]

def zeroValue : List Text := ["zero_page".toList]

theorem zeroShared : (∀ n ∈ zeroMask, n ∈ sharedNames) ∧ ∀ v ∈ some zeroValue, v ≠ [] ∧ ∀ n ∈ v, n ∈ sharedNames := by
  have names : sharedNames = sharedRows.map Prod.fst := by
    have firsts := congrArg (List.map Prod.fst) sharedTable
    simpa only [List.map_map,Function.comp_def,List.map_id'] using firsts
  have thp : "thp".toList ∈ sharedNames := names ▸ List.contains_iff_mem.mp (by decide +kernel)
  have zero : "zero_page".toList ∈ sharedNames := names ▸ List.contains_iff_mem.mp (by decide +kernel)
  refine ⟨List.forall_mem_cons.mpr ⟨thp,List.forall_mem_singleton.mpr zero⟩,?_⟩
  intro v mem
  cases Option.some.inj mem
  exact ⟨List.cons_ne_nil _ _,List.forall_mem_singleton.mpr zero⟩

/- The specification of the `zero` backend. -/
theorem specificationsAgreeZero :
    ((∀ w, shellSelects "thp,zero_page=zero_page".toList w ↔ toolSelects "thp,zero_page=zero_page".toList w) ↔
      TablesAgree zeroMask (some zeroValue)) ∧
      (TablesAgree zeroMask (some zeroValue) ↔ NamesAgree zeroMask (some zeroValue)) := by
  have text : specification zeroMask (some zeroValue) = "thp,zero_page=zero_page".toList := by decide +kernel
  have filled : zeroMask ≠ [] := List.cons_ne_nil _ _
  obtain ⟨agree,names⟩ := specificationsAgree (some zeroValue) filled zeroShared.1 zeroShared.2
  rw [text] at agree
  refine ⟨agree,names (by decide +kernel) ?_⟩
  intro v mem
  cases Option.some.inj mem
  exact List.nodup_singleton _

theorem zeroPageMoved : ¬ ∀ mask value w, mask ≠ [] → (∀ n ∈ mask, n ∈ sharedNames) →
    (∀ v ∈ value, v ≠ [] ∧ ∀ n ∈ v, n ∈ sharedNames) →
    (shellSelects (specification mask value) w ↔ toolSelects (specification mask value) w) := by
  intro all
  have same := all zeroMask (some zeroValue) (bit 24) (List.cons_ne_nil _ _) zeroShared.1 zeroShared.2
  have parsed : parseBitsMask [] (specification zeroMask (some zeroValue)) = .ok [(bit 22 ||| bit 24,bit 24)] := by
    decide +kernel
  have shell : getBackendPageflagsMaskValue (specification zeroMask (some zeroValue)) =
      some (bit 22 + bit 25,bit 25) := by
    decide +kernel
  obtain ⟨pair,found,selected⟩ := same.mpr ⟨_,parsed,by decide⟩
  cases Option.some.inj (shell.symm.trans found)
  revert selected
  decide

end MmRegression
