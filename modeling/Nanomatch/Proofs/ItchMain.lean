import Mathlib.Data.Finset.Dedup
import Mathlib.Data.List.TakeWhile
import Nanomatch.ItchMain
import Nanomatch.Lib.Csv
import Nanomatch.Proofs.RoutingRuns
import Nanomatch.Proofs.MmapParser

/-!
# What the command line asks for is replayed

Numbers are read back from their decimal digits, and lists of ids from their text. All tickers are
tracked if the argument for the ids says so, and also if there is no id in it.
-/

namespace Nanomatch

open Framing ItchParser OrderBook

/-- The calls at the start of `parse_itch_file` find a file of these bytes. -/
def Kernel.Seeks (k : Kernel) (path : String) (file : List UInt8) : Prop :=
  ∃ fd size, k.openFile path = some fd ∧ k.seekEnd fd = some size ∧ k.mmap fd size = some file

namespace ItchMain

section Decimal

variable {c : Char} {n : ℕ} {s : List Char}

theorem isSpace_of_isDigit (h : c.isDigit) : isSpace c = false := by
  simp only [Char.isDigit, Bool.and_eq_true, decide_eq_true_eq, ge_iff_le, UInt32.le_iff_toNat_le]
    at h
  have hlow : 48 ≤ c.toNat := h.1
  have hne : c ≠ ' ' := fun he => by
    rw [he] at hlow
    exact absurd hlow (by decide)
  simp only [isSpace, hne, false_or, decide_eq_false_iff_not]
  omega

theorem sign_of_isDigit (h : c.isDigit) : sign (c :: s) = (false, c :: s) := by
  unfold sign
  split
  · rename_i heq
    rw [(List.cons.inj heq).1] at h
    exact absurd h (by decide)
  · rename_i heq
    rw [(List.cons.inj heq).1] at h
    exact absurd h (by decide)
  · rfl

/-- The digits of a number are read back. -/
theorem stoul_toDigits (h : n < 2 ^ 64) : stoul (Nat.toDigits 10 n) = .ok (UInt64.ofNat n) := by
  have hdigit : ∀ c ∈ Nat.toDigits 10 n, c.isDigit := fun c hc =>
    Nat.isDigit_of_mem_toDigits (by decide) (by decide) hc
  obtain ⟨c, s, hs⟩ := List.exists_cons_of_ne_nil (Nat.toDigits_ne_nil (n := n) (b := 10))
  have hc := hdigit c (hs ▸ List.mem_cons_self)
  have hblank : (Nat.toDigits 10 n).dropWhile isSpace = Nat.toDigits 10 n := by
    rw [hs, List.dropWhile_cons_of_neg (by simp [isSpace_of_isDigit hc])]
  have hsign : sign (Nat.toDigits 10 n) = (false, Nat.toDigits 10 n) := by
    rw [hs, sign_of_isDigit hc]
  have htake : (Nat.toDigits 10 n).takeWhile Char.isDigit = Nat.toDigits 10 n :=
    List.takeWhile_eq_self_iff.2 hdigit
  unfold stoul
  simp only [hblank, hsign, htake, Nat.ofDigitChars_ten_toDigits]
  rw [if_neg Nat.toDigits_ne_nil, if_neg (by omega)]
  rfl

end Decimal

section Ids

variable {arg : List Char} {allowed : Finset UInt16}

/-- The text of a list of ids. -/
def idsText (locates : List UInt16) : String :=
  ",".intercalate (locates.map fun locate => toString locate.toNat)

theorem idsText_toList (locates : List UInt16) :
    (idsText locates).toList = Csv.line (locates.map UInt16.toNat) := by
  rw [idsText, String.toList_intercalate, List.map_map, Csv.line, List.map_map]
  congr 1
  refine List.map_congr_left fun locate _ => ?_
  rw [Function.comp_apply, Nat.toString_eq_ofList_toDigits, String.toList_ofList]
  rfl

theorem foldlM_addId_toDigits : ∀ (locates : List UInt16) (allowed : Finset UInt16),
    ((locates.map UInt16.toNat).map (Nat.toDigits 10)).foldlM addId allowed =
      .ok (locates.foldl (fun allowed locate => insert locate allowed) allowed)
  | [], _ => rfl
  | locate :: locates, allowed => by
    have hlt : locate.toNat < 2 ^ 64 := locate.toNat_lt.trans (by decide)
    have hone : addId allowed (Nat.toDigits 10 locate.toNat) = .ok (insert locate allowed) := by
      rw [addId, if_neg Nat.toDigits_ne_nil, stoul_toDigits hlt]
      have hcut : (UInt64.ofNat locate.toNat).toUInt16 = locate := by
        rw [← UInt16.toNat_inj, UInt64.toNat_toUInt16, UInt64.toNat_ofNat']
        have := locate.toNat_lt
        omega
      exact congrArg Except.ok (congrArg (insert · allowed) hcut)
    rw [List.map_cons, List.map_cons, List.foldlM_cons, hone]
    exact foldlM_addId_toDigits locates (insert locate allowed)

theorem foldl_insert (locates : List UInt16) : ∀ allowed : Finset UInt16,
    locates.foldl (fun allowed locate => insert locate allowed) allowed =
      allowed ∪ locates.toFinset := by
  induction locates with
  | nil => simp
  | cons locate locates ih =>
    intro allowed
    rw [List.foldl_cons, ih, List.toFinset_cons, Finset.insert_union, Finset.union_insert]

/-- The ids are read back from their text. -/
theorem locateIds_idsText {locates : List UInt16} (hne : locates ≠ []) :
    locateIds (idsText locates).toList = .ok locates.toFinset := by
  have hfold := foldlM_addId_toDigits locates ∅
  rw [foldl_insert, Finset.empty_union] at hfold
  rw [locateIds, idsText_toList, Csv.splitOn_line (mt List.map_eq_nil_iff.1 hne)]
  exact hfold

end Ids

section Options

/-- An option with its number. -/
inductive Opt
  | priceBand (n : UInt64)
  | maxOrders (n : UInt64)

def Opt.text : Opt → String
  | priceBand n => "--price-band=" ++ toString n.toNat
  | maxOrders n => "--max-orders=" ++ toString n.toNat

def Opt.apply (cfg : Config) : Opt → Config
  | priceBand n => { cfg with priceBand := n }
  | maxOrders n => { cfg with maxOrders := n }

theorem stoul_toString (n : UInt64) : stoul (toString n.toNat).toList = .ok n := by
  rw [Nat.toString_eq_ofList_toDigits, String.toList_ofList, stoul_toDigits n.toNat_lt,
    UInt64.ofNat_toNat]

theorem setOption_text (cfg : Config) : ∀ opt : Opt,
    setOption cfg opt.text.toList = .ok (opt.apply cfg)
  | .priceBand n => by
    have hafter : after "--price-band=" ("--price-band=" ++ toString n.toNat).toList =
        some (toString n.toNat).toList := by
      rw [String.toList_append]
      rfl
    simp only [setOption, Opt.text, hafter, stoul_toString]
    rfl
  | .maxOrders n => by
    have hother : after "--price-band=" ("--max-orders=" ++ toString n.toNat).toList = none := by
      rw [String.toList_append]
      rfl
    have hafter : after "--max-orders=" ("--max-orders=" ++ toString n.toNat).toList =
        some (toString n.toNat).toList := by
      rw [String.toList_append]
      rfl
    simp only [setOption, Opt.text, hother, hafter, stoul_toString]
    rfl

theorem foldlM_setOption : ∀ (opts : List Opt) (cfg : Config),
    ((opts.map Opt.text).map String.toList).foldlM setOption cfg = .ok (opts.foldl Opt.apply cfg)
  | [], _ => rfl
  | opt :: opts, cfg => by
    rw [List.map_cons, List.map_cons, List.foldlM_cons, setOption_text]
    exact foldlM_setOption opts (opt.apply cfg)

theorem foldl_apply (ids : Finset UInt16) : ∀ (opts : List Opt) (cfg : Config),
    opts.foldl Opt.apply { cfg with allowedLocates := ids } =
      { opts.foldl Opt.apply cfg with allowedLocates := ids }
  | [], _ => rfl
  | .priceBand n :: opts, cfg => foldl_apply ids opts { cfg with priceBand := n }
  | .maxOrders n :: opts, cfg => foldl_apply ids opts { cfg with maxOrders := n }

theorem foldl_apply_itchFile : ∀ (opts : List Opt) (cfg : Config),
    (opts.foldl Opt.apply cfg).itchFile = cfg.itchFile
  | [], _ => rfl
  | .priceBand n :: opts, cfg => foldl_apply_itchFile opts { cfg with priceBand := n }
  | .maxOrders n :: opts, cfg => foldl_apply_itchFile opts { cfg with maxOrders := n }

end Options

section Arguments

variable {argv : List String} {cfg : Config}

/-- What is asked for in the arguments' own format is what is configured. -/
theorem parseArgs_text (prog itch log : String) {locates : List UInt16} (hne : locates ≠ [])
    (opts : List Opt) :
    parseArgs (prog :: itch :: log :: idsText locates :: opts.map Opt.text) = .ok (opts.foldl
      Opt.apply { itchFile := itch, logFile := log, allowedLocates := locates.toFinset }) := by
  have hids := locateIds_idsText hne
  have hall : idsText locates ≠ "--all-tickers" := fun he => by
    rw [he] at hids
    exact absurd hids (by rintro ⟨⟩)
  have hallowed : allowed (idsText locates) = .ok locates.toFinset := by
    rw [allowed, if_pos hall, hids]
  have hlen : (prog :: itch :: log :: idsText locates :: opts.map Opt.text).length =
      opts.length + 4 := by simp
  have hconfigure : configure (prog :: itch :: log :: idsText locates :: opts.map Opt.text) =
      .ok (opts.foldl Opt.apply
        { itchFile := itch, logFile := log, allowedLocates := locates.toFinset }) := by
    unfold configure
    rw [hlen, if_pos (by omega)]
    exact (congrArg (· >>= _) hallowed).trans (foldlM_setOption opts _)
  rw [parseArgs, hlen, if_neg (by omega), if_pos (by omega), hconfigure]
  rfl

end Arguments

section Main

/-- The numbers for which a book can be made. -/
structure Config.InRange (cfg : Config) : Prop where
  band : 0 < cfg.priceBand.toNat ∧ cfg.priceBand.toNat < 2 ^ 32
  orders : 0 < cfg.maxOrders.toNat ∧ cfg.maxOrders.toNat < 2 ^ 32

variable {k : Kernel} {argv : List String} {file : List UInt8} {cfg : Config} {locate : ℕ}

/-- The books of a replay are those of tracked tickers. -/
theorem Config.InRange.parses (hc : cfg.InRange) (allowedLocates : Finset UInt16)
    (file : List UInt8) : ∃ m,
      parseItchFile (fresh cfg.priceBand.toNat cfg.maxOrders.toNat) allowedLocates file {} =
        some m ∧ ∀ locate, m.book locate ≠ none →
          locate < kMaxStockLocate ∧ isTracked allowedLocates (UInt16.ofNat locate) := by
  have hret := fresh_returns hc.band.1 hc.band.2 hc.orders.1 hc.orders.2
  obtain ⟨fs, rest, hsplit, hend⟩ := exists_stuck nil_notMem_frames file
  obtain ⟨m, hm, -⟩ := Market.Ok.handleAll hret allowedLocates (messagesOf fs rest)
    (Market.ok_init _)
  have hholds := (Market.holds_init (fresh cfg.priceBand.toNat cfg.maxOrders.toNat)
    allowedLocates).handleAll hret (Market.ok_init _) hm
  refine ⟨m, (parseItchFile_eq _ _ hsplit hend _).trans hm, fun locate hbook => ?_⟩
  rcases hcell : m.marketBooks.cell locate with _ | b
  · refine absurd ?_ hbook
    by_cases hlt : locate < m.marketBooks.size <;> simp [Market.book, Cells.read, hlt, hcell]
  · exact hholds.place hcell

theorem mapFile_seeks (h : Held) {path : String} (hs : k.Seeks path file) :
    ∃ fd, mapFile k h path = ((h.opened fd).mapped, .ok (fd, file)) := by
  obtain ⟨fd, size, hopen, hseek, hmap⟩ := hs
  exact ⟨fd, by simp [mapFile, hopen, hseek, hmap]⟩

theorem closed_unmapped (h : Held) (fd : ℕ) : (h.opened fd).mapped.unmapped.closed fd = h := by
  simp [Held.opened, Held.mapped, Held.unmapped, Held.closed]

/-- What is asked for in the arguments' own format is what is replayed: the ids are tracked and no
others, and of each option the last one counts. -/
theorem main_text (h : Held) (prog itch log : String) {locates : List UInt16} (hne : locates ≠ [])
    (opts : List Opt) (hcfg : cfg = opts.foldl Opt.apply { itchFile := itch, logFile := log })
    (hrange : cfg.InRange) (hseeks : k.Seeks itch file) :
    ∃ m, main k h FinMap.init (prog :: itch :: log :: idsText locates :: opts.map Opt.text) =
        some (h, .replayed m) ∧
      parseItchFile (fresh cfg.priceBand.toNat cfg.maxOrders.toNat) locates.toFinset file {} =
        some m ∧
      ∀ locate, m.book locate ≠ none → UInt16.ofNat locate ∈ locates := by
  obtain ⟨fd, hmap⟩ := mapFile_seeks h hseeks
  obtain ⟨m, hm, hbooks⟩ := hrange.parses locates.toFinset file
  have hargs := parseArgs_text prog itch log hne opts
  rw [foldl_apply locates.toFinset opts { itchFile := itch, logFile := log }, ← hcfg] at hargs
  have hfile : cfg.itchFile = itch := hcfg ▸ foldl_apply_itchFile opts _
  have hrun : parseItchFile (OrderBook.new cfg.priceBand.toNat cfg.maxOrders.toNat FinMap.init)
      locates.toFinset file {} = some m := hm
  refine ⟨m, ?_, hm, fun locate hbook => ?_⟩
  · unfold main
    simp only [hargs, hfile, hmap, hrun, Option.bind_eq_bind, Option.bind_some, closed_unmapped]
  · rcases (hbooks locate hbook).2 with hnil | hmem
    · exact absurd (List.toFinset_eq_empty_iff _ |>.1 hnil) hne
    · exact List.mem_toFinset.1 hmem

end Main

section Examples

theorem oneFile_seeks (path : String) (bytes : List UInt8) :
    (MmapParser.oneFile bytes).Seeks path bytes := ⟨3, bytes.length, rfl, rfl, if_pos rfl⟩

/-- The options of the example, and what they set. -/
def sampleOpts : List Opt := [.maxOrders 9, .priceBand 16, .maxOrders 4]

def sampleConfig : Config :=
  { itchFile := "feed.bin", logFile := "trades.csv", priceBand := 16, maxOrders := 4 }

theorem main_text_twoIds : ∃ m : Market (OrderBook FinMap),
    main (MmapParser.oneFile (addSeven ++ addEight)) {} FinMap.init
        ("itch_replay" :: "feed.bin" :: "trades.csv" :: idsText [1, 3] :: sampleOpts.map Opt.text) =
        some ({}, .replayed m) ∧
      parseItchFile (fresh sampleConfig.priceBand.toNat sampleConfig.maxOrders.toNat)
        [1, 3].toFinset (addSeven ++ addEight) {} = some m ∧
      ∀ locate, m.book locate ≠ none → UInt16.ofNat locate ∈ [1, 3] := by
  have hcfg : sampleConfig =
    sampleOpts.foldl Opt.apply { itchFile := "feed.bin", logFile := "trades.csv" } := rfl
  exact main_text {} "itch_replay" "feed.bin" "trades.csv" (List.cons_ne_nil 1 [3])
    sampleOpts hcfg ⟨by decide, by decide⟩ (oneFile_seeks _ _)

end Examples

end ItchMain

end Nanomatch
