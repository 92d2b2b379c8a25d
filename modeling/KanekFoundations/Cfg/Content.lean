/-
  KanekFoundations.Cfg.Content — what the values in memory hold, over any run of a context.

  `HasContent h a c`: from the block at `a`, along the pointers of the heap, one reads `c`,
  down to the last item. `Reach` are the memories between two lines, in any sequence of
  loads on a fresh context: values are only ever added there, each block with its pointers
  into what was there before.

  Proved, under any outcome of the allocations:
  - `line_keeps_content`: a line that sets a variable keeps the content of every other one, a
    display keeps all, and nothing that is reached from a variable was freed;
  - `values_acyclic`: no value is reached from its own items, a variable reaches finitely many
    values and no NULL, and a print without a depth limit ends.
-/

import KanekFoundations.Cfg.FileProofs

namespace KanekFoundations.Cfg

open KanekFoundations.Lib

variable {F : Type} {sys : Sys F} {g g' : SubHeap (Block F)} {h h' : SubHeap (Block F)} {m m' : Mem F} {a v : Addr}

/-! ## Contents -/

/-- A value with everything in it. A string may be NULL, when the copy of its text failed. -/
inductive Content (F : Type)
  | null
  | int (i : Int)
  | float (f : F)
  | bool (b : Bool)
  | str (text : Option (List Byte))
  | array (items : List (Content F))

inductive HasContent (h : SubHeap (Block F)) : Addr → Content F → Prop
  | null {a : Addr} : h a = some .null → HasContent h a .null
  | int {a : Addr} {i : Int} : h a = some (.int i) → HasContent h a (.int i)
  | float {a : Addr} {f : F} : h a = some (.float f) → HasContent h a (.float f)
  | bool {a : Addr} {b : Bool} : h a = some (.bool b) → HasContent h a (.bool b)
  | noStr {a : Addr} : h a = some (.str none) → HasContent h a (.str none)
  | str {a s : Addr} {cap : Nat} {text : List Byte} :
    h a = some (.str (some s)) → h s = some (.chars cap text) → HasContent h a (.str (some text))
  | array {a items : Addr} {cap : Nat} {addrs : List Addr} {content : Addr → Content F} :
    h a = some (.array items addrs.length cap) → h items = some (.ptrs cap (addrs.map some)) →
      (∀ v ∈ addrs, HasContent h v (content v)) → HasContent h a (.array (addrs.map content))

theorem HasContent.mono {c : Content F} (hs : Sub h h') (hc : HasContent h a c) : HasContent h' a c := by
  induction hc with
  | null ha => exact .null (hs _ _ ha)
  | int ha => exact .int (hs _ _ ha)
  | float ha => exact .float (hs _ _ ha)
  | bool ha => exact .bool (hs _ _ ha)
  | noStr ha => exact .noStr (hs _ _ ha)
  | str ha hs' => exact .str (hs _ _ ha) (hs _ _ hs')
  | array ha hi _ ih => exact .array (hs _ _ ha) (hs _ _ hi) ih

/-- What a block holds is read from the heap, so there is one content. -/
theorem HasContent.unique {c c' : Content F} (hc : HasContent h a c) (hc' : HasContent h a c') : c' = c := by
  induction hc generalizing c' with
  | null ha | noStr ha =>
    cases hc' <;> rename_i ha' <;> cases ha.symm.trans ha'
    rfl
  | int ha | float ha | bool ha =>
    cases hc' <;> rename_i ha' <;> cases ha.symm.trans ha'
    rfl
  | str ha hs =>
    cases hc' with
    | str ha' hs' =>
      cases ha.symm.trans ha'
      cases hs.symm.trans hs'
      rfl
    | null ha' | int ha' | float ha' | bool ha' | noStr ha' | array ha' => cases ha.symm.trans ha'
  | @array _ items _ addrs content ha hi _ ih =>
    cases hc' with
    | @array _ items' _ addrs' content' ha' hi' hall' =>
      have hitems : items = items' := (Block.array.inj (Option.some.inj (ha.symm.trans ha'))).1
      subst hitems
      have haddrs : addrs.map some = addrs'.map some := (Block.ptrs.inj (Option.some.inj (hi.symm.trans hi'))).2
      have hsame : addrs = addrs' := List.map_injective_iff.mpr (Option.some_injective _) haddrs
      subst hsame
      exact congrArg Content.array (List.map_congr_left fun v hv => ih v hv (hall' v hv))
    | null ha' | int ha' | float ha' | bool ha' | noStr ha' | str ha' => cases ha.symm.trans ha'

/-- Every value of the part has a content. -/
def Readable (g : SubHeap (Block F)) : Prop := ∀ a, IsVar g a → ∃ c, HasContent g a c

/-- A block that is made of readable values is readable. -/
theorem Readable.made {b : Block F} (hr : Readable g) (hsub : Sub g g') (ha : g' a = some b) (hvar : b.isVar = true)
    (hmade : b.Made g) : ∃ c, HasContent g' a c := by
  cases b with
  | null => exact ⟨_, .null ha⟩
  | int i => exact ⟨_, .int ha⟩
  | float f => exact ⟨_, .float ha⟩
  | bool b => exact ⟨_, .bool ha⟩
  | str s =>
    cases s with
    | none => exact ⟨_, .noStr ha⟩
    | some s =>
      obtain ⟨cap, text, hget⟩ := hmade
      exact ⟨_, .str ha (hsub _ _ hget)⟩
  | array items len cap =>
    obtain ⟨addrs, hget, rfl, hvars⟩ := hmade
    have hitem : ∀ v, ∃ c, v ∈ addrs → HasContent g' v c := by
      intro v
      by_cases hv : v ∈ addrs
      · obtain ⟨c, hc⟩ := hr v (hvars v hv)
        exact ⟨c, fun _ => hc.mono hsub⟩
      · exact ⟨.null, fun hv' => absurd hv' hv⟩
    choose content hcontent using hitem
    exact ⟨_, .array ha (hsub _ _ hget) hcontent⟩
  | dict d => exact hmade.elim
  | raw | chars | ptrs => cases hvar

theorem Readable.built (hr : Readable g) (hb : Built g g') : Readable g' := by
  induction hb with
  | refl => exact hr
  | @add _ a b _ hout hmade ih =>
    intro a' hvar
    obtain ⟨b', hget, hvar'⟩ := hvar
    have hsub := Sub.add (b := b) hout
    by_cases hne : a' = a
    · subst hne
      rw [SubHeap.add_self] at hget
      cases hget
      exact ih.made hsub (SubHeap.add_self _ _ _) hvar' hmade
    · rw [SubHeap.add_of_ne _ b hne] at hget
      obtain ⟨c, hc⟩ := ih a' ⟨b', hget, hvar'⟩
      exact ⟨c, hc.mono hsub⟩

/-! ## Runs -/

/-- The memories between two lines. What else happens there is reports and the record of files. -/
inductive Reach (sys : Sys F) : Mem F → Prop
  | fresh {gc : Heap (Block F)} {mallocs : Nat} {m : Mem F} : kflCfgNew sys gc mallocs = some m → Reach sys m
  | line {m m' : Mem F} {n : Nat} {line dir : List Byte} {rc : Int} :
    Reach sys m → parseLine sys (cfgLoadDepth sys n) line dir m = some (rc, m') → Reach sys m'
  | note {m : Mem F} (trace : List Report) (files : List FileEvent) :
    Reach sys m → Reach sys { m with trace := trace, files := files }

/-- All that a context has ever put in reach of its variables is readable. -/
theorem Reach.inv (hr : Reach sys m) : ∃ g, Safe sys g m ∧ Readable g := by
  induction hr with
  | fresh hnew =>
    refine ⟨_, (kflCfgNew_safe hnew).1, fun a hvar => ?_⟩
    obtain ⟨b, hget, -⟩ := hvar
    cases hget
  | @line m m' n line dir rc _ hrun ih =>
    obtain ⟨g, hsafe, hread⟩ := ih
    obtain ⟨⟨rc', m₁⟩, hrun', hpost⟩ := parseLine_spec (cfgLoadDepth_spec n) hsafe line dir
    cases hrun.symm.trans hrun'
    obtain ⟨g', hbuilt, hsafe'⟩ := hpost.grown
    exact ⟨g', hsafe', hread.built hbuilt⟩
  | note trace files _ ih =>
    obtain ⟨g, hsafe, hread⟩ := ih
    exact ⟨g, (hsafe.report trace).log files, hread⟩

/-- A load goes from line to line, so it ends in a reachable memory, and so do the loads inside it. -/
theorem Reach.load (hr : Reach sys m) (n : Nat) (path : List Byte) :
    wp (cfgLoadDepth sys n path) (fun _ m' => Reach sys m') m := by
  unfold cfgLoadDepth
  cases n with
  | zero => exact wp_bind.mpr (wp_traceErr.mpr (wp_pure.mpr (hr.note _ m.files)))
  | succ n =>
    dsimp only
    cases sys.fopen path with
    | none => exact wp_bind.mpr (wp_traceErr.mpr (wp_pure.mpr (hr.note _ m.files)))
    | some content =>
      refine wp_bind.mpr (wp_logFile.mpr ?_)
      refine wp.bind (loadLines_rule _ _ (fun _ _ m' => Reach sys m') ?_ ?_ _ (Nat.lt_succ_self _) 0
        (hr.note m.trace _)) ?_
      · exact fun _ _ m' trace hm' => hm'.note trace m'.files
      · intro line _ _ m' hm'
        obtain ⟨g, hsafe, -⟩ := hm'.inv
        obtain ⟨⟨r, m₁⟩, hrun, -⟩ := parseLine_spec (cfgLoadDepth_spec n) hsafe line (dirOf path)
        exact ⟨(r, m₁), hrun, fun trace _ => (Reach.line hm' hrun).note trace _⟩
      · exact fun _ m₁ hm₁ => wp_bind.mpr (wp_logFile.mpr (wp_pure.mpr (hm₁.note m₁.trace _)))

/-! ## What a line keeps -/

/-- The variable `k` holds `c`. -/
def Binds (sys : Sys F) (m : Mem F) (k : List Byte) (c : Content F) : Prop :=
  ∃ v, m.vars.dictGet sys.xxh32 (some k) = some v ∧ HasContent m.heap.get v c

def Displays (sys : Sys F) (line : List Byte) : Prop := ∃ q, Reads sys line (.ident displayText) q

/-- The blocks that are reached from the variables. -/
inductive Reached (sys : Sys F) (m : Mem F) : Addr → Prop
  | var {k : List Byte} {v : Addr} : m.vars.dictGet sys.xxh32 (some k) = some v → Reached sys m v
  | text {a s : Addr} : Reached sys m a → m.heap.get a = some (.str (some s)) → Reached sys m s
  | items {a items len cap : Nat} : Reached sys m a → m.heap.get a = some (.array items len cap) → Reached sys m items
  | item {a items len cap cap' v : Nat} {written : List (Option Addr)} :
    Reached sys m a → m.heap.get a = some (.array items len cap) → m.heap.get items = some (.ptrs cap' written) →
      some v ∈ written → Reached sys m v
  | entry {a v : Addr} {d : Dict (List Byte) Addr} {e : Dict.Entry (List Byte) Addr} :
    Reached sys m a → m.heap.get a = some (.dict d) → e ∈ d.buckets.flatten → e.val = some v → Reached sys m v

/-- A block of the part, known from the heap. -/
theorem Safe.block {b : Block F} (hm : Safe sys g m) (ha : ∃ b, g a = some b) (hb : m.heap.get a = some b) :
    b.Sound g := by
  obtain ⟨b', hget⟩ := ha
  have hsame : b' = b := Option.some.inj ((hm.within a b' hget).symm.trans hb)
  subst hsame
  exact hm.closed a b' hget

theorem Safe.reached (hm : Safe sys g m) (ha : Reached sys m a) : ∃ b, g a = some b := by
  have hvar : ∀ {v}, IsVar g v → ∃ b, g v = some b := fun hv => hv.imp fun _ hb => hb.1
  induction ha with
  | var hk => exact hvar (hm.getVar _ hk)
  | text _ hb ih =>
    obtain ⟨cap, text, hget⟩ := hm.block ih hb
    exact ⟨_, hget⟩
  | items _ hb ih =>
    obtain ⟨written, hget, -⟩ := hm.block ih hb
    exact ⟨_, hget⟩
  | item _ hb hi hv ih =>
    obtain ⟨written, hget, -, hvars⟩ := hm.block ih hb
    cases (hm.within _ _ hget).symm.trans hi
    exact hvar (hvars _ hv)
  | entry _ hb he hv ih => exact hvar (hm.block ih hb _ he _ hv)

theorem Assigns.unique {line k k' : List Byte} (hk : Assigns sys line k) (hk' : Assigns sys line k') : k' = k := by
  obtain ⟨s, q, -, -, hr, -, -, -, -, rfl⟩ := hk
  obtain ⟨s', q', -, -, hr', -, -, -, -, rfl⟩ := hk'
  rw [Tok.ident.inj (hr.unique hr').1]

theorem Displays.not_assigns {line : List Byte} (hd : Displays sys line) (k : List Byte) : ¬ Assigns sys line k := by
  intro hk
  obtain ⟨q, hr⟩ := hd
  obtain ⟨s, q', -, -, hr', -, hne, -⟩ := hk
  exact hne (Tok.ident.inj (hr.unique hr').1)

/-- A variable that is bound as before, to a value of the part, holds what it held. -/
theorem Frame.binds {keys : List Byte → Prop} (hm : Safe sys g m) (hread : Readable g) (hbuilt : Built g g')
    (hm' : Safe sys g' m') (hframe : Frame sys m keys m') {k : List Byte} (hk : ¬ keys k) (c : Content F) :
    Binds sys m' k c ↔ Binds sys m k c := by
  unfold Binds
  rw [hframe.vars k hk]
  refine exists_congr fun v => and_congr_right fun hv => ?_
  obtain ⟨c₀, hc₀⟩ := hread v (hm.getVar k hv)
  have hold := hc₀.mono hm.within
  have hnew := hc₀.mono (hbuilt.sub.trans hm'.within)
  constructor
  · intro hc
    rw [hnew.unique hc]
    exact hold
  · intro hc
    rw [hold.unique hc]
    exact hnew

/-- At any point between two lines, everything in reach of the variables is there to be read; and
    the next line keeps what the variables hold that it does not set. -/
theorem line_keeps_content (hr : Reach sys m) (n : Nat) (line dir : List Byte) :
    ∃ rc m', parseLine sys (cfgLoadDepth sys n) line dir m = some (rc, m') ∧
      (∀ key, Assigns sys (lineText line) key → ∀ k, k ≠ key → ∀ c, Binds sys m' k c ↔ Binds sys m k c) ∧
      (Displays sys (lineText line) → ∀ k c, Binds sys m' k c ↔ Binds sys m k c) ∧
      (∀ k v, m.vars.dictGet sys.xxh32 (some k) = some v → ∃ c, HasContent m.heap.get v c) ∧
      ∀ a, Reached sys m a → ∃ b, m.heap.get a = some b := by
  obtain ⟨g, hm, hread⟩ := hr.inv
  obtain ⟨⟨rc, m'⟩, hrun, hpost⟩ := parseLine_spec (cfgLoadDepth_spec n) hm line dir
  obtain ⟨g', hbuilt, hm'⟩ := hpost.grown
  -- A line that is no include keeps what it does not set.
  have hkeep : (∀ path, ¬ Includes sys dir (lineText line) path) → ∀ k, ¬ Assigns sys (lineText line) k →
      ∀ c, Binds sys m' k c ↔ Binds sys m k c := by
    intro hno k hk
    cases hpost.effect with
    | plain _ hframe => exact hframe.binds hm hread hbuilt hm' hk
    | incl hincl => exact absurd hincl (hno _)
  refine ⟨rc, m', hrun, fun key hkey k hne => ?_, fun hd k => ?_, fun k v hv => ?_, fun a ha => ?_⟩
  · have hno : ∀ path, ¬ Includes sys dir (lineText line) path := by
      obtain ⟨s, q, q', t, hfirst, hincl, -⟩ := hkey
      exact not_includes hfirst hincl
    exact hkeep hno k fun hk => hne (hkey.unique hk)
  · obtain ⟨q, hfirst⟩ := hd
    exact hkeep (not_includes hfirst (by decide)) k (Displays.not_assigns ⟨q, hfirst⟩ k)
  · obtain ⟨c, hc⟩ := hread v (hm.getVar k hv)
    exact ⟨c, hc.mono hm.within⟩
  · obtain ⟨b, hb⟩ := hm.reached ha
    exact ⟨b, hm.within a b hb⟩

/-- `B = [1]` and then `A = [B, B]`: the items are `B` itself, and `B` is as it was. -/
theorem line_keeps_content_shared :
    ∃ rc₁ m₁ rc₂ m₂, parseLine plainSys (cfgLoadDepth plainSys 16)
      (ascii ['B', '=', '[', '1', ']']) [] plainMem = some (rc₁, m₁) ∧
      parseLine plainSys (cfgLoadDepth plainSys 16) (ascii ['A', '=', '[', 'B', ',', 'B', ']']) [] m₁ = some (rc₂, m₂) ∧
      ∀ c, Binds plainSys m₂ (ascii ['B']) c ↔ Binds plainSys m₁ (ascii ['B']) c := by
  have hfresh : Reach plainSys plainMem := .fresh plainMem_new
  obtain ⟨rc₁, m₁, hrun₁, -⟩ := line_keeps_content hfresh 16 (ascii ['B', '=', '[', '1', ']']) []
  obtain ⟨rc₂, m₂, hrun₂, hkeep, -⟩ :=
    line_keeps_content (.line hfresh hrun₁) 16 (ascii ['A', '=', '[', 'B', ',', 'B', ']']) []
  have hfirst : Reads plainSys (lineText (ascii ['A', '=', '[', 'B', ',', 'B', ']'])) (.ident (ascii ['A']))
      (ascii ['=', '[', 'B', ',', 'B', ']']) := by decide +kernel
  have hop : Reads plainSys (ascii ['=', '[', 'B', ',', 'B', ']']) .eq (ascii ['[', 'B', ',', 'B', ']']) := by
    decide +kernel
  exact ⟨rc₁, m₁, rc₂, m₂, hrun₁, hrun₂,
    hkeep (ascii ['A']) ⟨_, _, _, _, hfirst, by decide, by decide, hop, .inl rfl, by decide⟩ _ (by decide)⟩

/-! ## No value in itself -/

/-- `v` is an item of the array at `a`. -/
def Item (h : SubHeap (Block F)) (a v : Addr) : Prop :=
  ∃ items len cap cap' written, h a = some (.array items len cap) ∧ h items = some (.ptrs cap' written) ∧
    some v ∈ written

/-- The values that the variables reach through items. -/
def VarReaches (sys : Sys F) (m : Mem F) (v : Addr) : Prop :=
  ∃ k v₀, m.vars.dictGet sys.xxh32 (some k) = some v₀ ∧ Relation.ReflTransGen (Item m.heap.get) v₀ v

/-- An item holds a part of what the array holds. -/
theorem HasContent.item {c : Content F} (hc : HasContent h a c) (hi : Item h a v) :
    ∃ c', HasContent h v c' ∧ sizeOf c' < sizeOf c := by
  obtain ⟨items, len, cap, cap', written, ha, hitems, hv⟩ := hi
  cases hc with
  | @array _ items' _ addrs content ha' hitems' hall =>
    have hsame : items' = items := (Block.array.inj (Option.some.inj (ha'.symm.trans ha))).1
    subst hsame
    have hwritten : addrs.map some = written := (Block.ptrs.inj (Option.some.inj (hitems'.symm.trans hitems))).2
    subst hwritten
    obtain ⟨v', hmem, hv'⟩ := List.mem_map.mp hv
    cases hv'
    refine ⟨content v, hall v hmem, ?_⟩
    have hlt := List.sizeOf_lt_of_mem (List.mem_map_of_mem (f := content) hmem)
    rw [Content.array.sizeOf_spec]
    omega
  | null ha' | int ha' | float ha' | bool ha' | noStr ha' | str ha' => cases ha'.symm.trans ha

theorem HasContent.inside {c : Content F} (hc : HasContent h a c) (hi : Relation.TransGen (Item h) a v) :
    ∃ c', HasContent h v c' ∧ sizeOf c' < sizeOf c := by
  induction hi with
  | single hi => exact hc.item hi
  | tail _ hi ih =>
    obtain ⟨c', hc', hlt⟩ := ih
    obtain ⟨c'', hc'', hlt'⟩ := hc'.item hi
    exact ⟨c'', hc'', Nat.lt_trans hlt' hlt⟩

theorem HasContent.acyclic {c : Content F} (hc : HasContent h a c) : ¬ Relation.TransGen (Item h) a a := by
  intro hi
  obtain ⟨c', hc', hlt⟩ := hc.inside hi
  rw [hc.unique hc'] at hlt
  exact Nat.lt_irrefl _ hlt

/-! ## Printing -/

mutual

/-- The print of a value without a limit to its depth. -/
def Content.print (sys : Sys F) : Content F → List Byte
  | .null => nullText
  | .int i => decimal i
  | .float f => sys.fmtG f
  | .bool b => boolText b
  | .str text => chr '"' :: text.getD nullText ++ [chr '"']
  | .array items => chr '[' :: (ascii [',', ' ']).intercalate (printAll sys items) ++ [chr ']']

def printAll (sys : Sys F) : List (Content F) → List (List Byte)
  | [] => []
  | c :: cs => c.print sys :: printAll sys cs

end

theorem printAll_map (content : Addr → Content F) (addrs : List Addr) :
    printAll sys (addrs.map content) = addrs.map fun v => (content v).print sys := by
  induction addrs with
  | nil => rfl
  | cons v addrs ih => exact congrArg _ ih

/-- The program prints `text`, and that is all. -/
def Writes (p : M F Unit) (h : SubHeap (Block F)) (text : List Byte) : Prop :=
  ∀ m : Mem F, m.heap.get = h → wp p (fun _ m' => m' = { m with out := m.out ++ text }) m

theorem printf_writes (text : List Byte) : Writes (printf text) h text := fun _ _ => wp_printf.mpr rfl

theorem Writes.bind {p : M F Unit} {q : Unit → M F Unit} {s t : List Byte} (hp : Writes p h s)
    (hq : Writes (q ()) h t) :
    Writes (p >>= q) h (s ++ t) := by
  intro m hm
  refine wp.bind (hp m hm) fun _ m₁ hm₁ => ?_
  subst hm₁
  refine (hq { m with out := m.out ++ s } hm).mono fun _ m₂ hm₂ => ?_
  rw [hm₂, List.append_assoc]

theorem printSep_writes {α : Type} {print : α → M F Unit} (text : α → List Byte) (xs : List α)
    (hx : ∀ x ∈ xs, Writes (print x) h (text x)) :
    Writes (printSep print xs) h ((ascii [',', ' ']).intercalate (xs.map text)) := by
  induction xs with
  | nil => exact fun m _ => wp_pure.mpr (by simp [List.intercalate])
  | cons x xs ih =>
    have hfirst := hx x (List.mem_cons_self ..)
    cases xs with
    | nil => simpa [List.intercalate, printSep] using hfirst
    | cons y ys =>
      have hrest := ih fun z hz => hx z (List.mem_cons_of_mem _ hz)
      have hall := hfirst.bind (q := fun _ => _) ((printf_writes (ascii [',', ' '])).bind (q := fun _ => _) hrest)
      simpa [List.intercalate, printSep] using hall

/-- A value that is no array is printed on one level. -/
theorem one_level {text : List Byte} (hp : ∀ n, Writes (varPrintDepth sys (n + 1) (some a)) h text) :
    ∃ N, ∀ n, N ≤ n → Writes (varPrintDepth sys n (some a)) h text := by
  refine ⟨1, fun n hn => ?_⟩
  obtain ⟨n, rfl⟩ := Nat.exists_eq_add_of_le' hn
  exact hp n

theorem enough_for_all {P : Addr → Nat → Prop} (addrs : List Addr) (hP : ∀ v ∈ addrs, ∃ N, ∀ n, N ≤ n → P v n) :
    ∃ N, ∀ v ∈ addrs, ∀ n, N ≤ n → P v n := by
  induction addrs with
  | nil => exact ⟨0, fun v hv => (by cases hv)⟩
  | cons v addrs ih =>
    obtain ⟨N, hN⟩ := hP v (List.mem_cons_self ..)
    obtain ⟨K, hK⟩ := ih fun w hw => hP w (List.mem_cons_of_mem _ hw)
    refine ⟨max N K, fun w hw n hn => ?_⟩
    rcases List.mem_cons.mp hw with rfl | hw
    · exact hN n (Nat.le_trans (Nat.le_max_left _ _) hn)
    · exact hK w hw n (Nat.le_trans (Nat.le_max_right _ _) hn)

theorem array_writes {items cap n : Nat} {addrs : List Addr} {content : Addr → Content F}
    (ha : h a = some (.array items addrs.length cap)) (hi : h items = some (.ptrs cap (addrs.map some)))
    (hn : ∀ v ∈ addrs, Writes (varPrintDepth sys n (some v)) h ((content v).print sys)) :
    Writes (varPrintDepth sys (n + 1) (some a)) h ((Content.array (addrs.map content)).print sys) := by
  have hitems : Writes (printSep (varPrintDepth sys n) (addrs.map some)) h
      ((ascii [',', ' ']).intercalate (printAll sys (addrs.map content))) := by
    have hx : ∀ x ∈ addrs.map some, Writes (varPrintDepth sys n x) h (x.elim [] fun v => (content v).print sys) := by
      intro x hx
      obtain ⟨v, hv, rfl⟩ := List.mem_map.mp hx
      exact hn v hv
    have hall := printSep_writes _ _ hx
    rw [List.map_map] at hall
    rw [printAll_map]
    exact hall
  intro m hm
  unfold varPrintDepth
  rw [wp_bind, wp_load (hm ▸ ha)]
  refine wp.bind (printf_writes _ m hm) fun _ m₁ hm₁ => ?_
  subst hm₁
  have hlen : addrs.length ≤ (addrs.map some).length := Nat.le_of_eq (List.length_map _).symm
  show wp (cells items >>= _) _ _
  rw [wp_bind, wp_cells (hm ▸ hi), if_pos hlen, List.take_of_length_le (Nat.le_of_eq (List.length_map _))]
  refine wp.bind (hitems _ hm) fun _ m₂ hm₂ => ?_
  subst hm₂
  refine wp_printf.mpr ?_
  simp [Content.print]

/-- With enough levels left, all of a value is printed. -/
theorem HasContent.prints {c : Content F} (hc : HasContent h a c) :
    ∃ N, ∀ n, N ≤ n → Writes (varPrintDepth sys n (some a)) h (c.print sys) := by
  induction hc with
  | null ha | int ha | float ha | bool ha | noStr ha =>
    refine one_level fun n m hm => ?_
    unfold varPrintDepth
    rw [wp_bind, wp_load (hm ▸ ha)]
    exact printf_writes _ m hm
  | str ha hs =>
    refine one_level fun n m hm => ?_
    unfold varPrintDepth
    rw [wp_bind, wp_load (hm ▸ ha)]
    show wp (cstr _ >>= _) _ m
    rw [wp_bind, wp_cstr (hm ▸ hs)]
    exact printf_writes _ m hm
  | @array _ _ _ addrs _ ha hi _ ih =>
    obtain ⟨N, hN⟩ := enough_for_all addrs ih
    refine ⟨N + 1, fun n hn => ?_⟩
    obtain ⟨n, rfl⟩ := Nat.exists_eq_add_of_le' (Nat.le_trans (Nat.le_add_left 1 N) hn)
    exact array_writes ha hi fun v hv => hN v hv n (Nat.le_of_succ_le_succ hn)

/-- The values in reach of the variables hang together without a cycle, are finitely many and have
    no NULL among their items; the print of a variable ends, with nothing cut off. -/
theorem values_acyclic (hr : Reach sys m) :
    (∀ v, VarReaches sys m v → ¬ Relation.TransGen (Item m.heap.get) v v) ∧
      {v | VarReaches sys m v}.Finite ∧
      (∀ v items len cap, VarReaches sys m v → m.heap.get v = some (.array items len cap) →
        ∃ addrs : List Addr, addrs.length = len ∧ m.heap.get items = some (.ptrs cap (addrs.map some))) ∧
      ∀ k v, m.vars.dictGet sys.xxh32 (some k) = some v → ∃ c N, HasContent m.heap.get v c ∧
        ∀ n, N ≤ n → wp (varPrintDepth sys n (some v)) (fun _ m' => m' = { m with out := m.out ++ c.print sys }) m := by
  obtain ⟨g, hm, hread⟩ := hr.inv
  have hcontent : ∀ k v, m.vars.dictGet sys.xxh32 (some k) = some v → ∃ c, HasContent m.heap.get v c := by
    intro k v hv
    obtain ⟨c, hc⟩ := hread v (hm.getVar k hv)
    exact ⟨c, hc.mono hm.within⟩
  have hreach : ∀ v, VarReaches sys m v → ∃ c, HasContent m.heap.get v c := by
    intro v hv
    obtain ⟨k, v₀, hk, hpath⟩ := hv
    obtain ⟨c, hc⟩ := hcontent k v₀ hk
    rcases Relation.reflTransGen_iff_eq_or_transGen.mp hpath with rfl | hpath
    · exact ⟨c, hc⟩
    · obtain ⟨c', hc', -⟩ := hc.inside hpath
      exact ⟨c', hc'⟩
  refine ⟨fun v hv => ?_, ?_, fun v items len cap hv harr => ?_, fun k v hv => ?_⟩
  · obtain ⟨c, hc⟩ := hreach v hv
    exact hc.acyclic
  · refine (Set.finite_lt_nat m.heap.length).subset fun v hv => ?_
    obtain ⟨c, hc⟩ := hreach v hv
    cases hc with
    | null ha | int ha | float ha | bool ha | noStr ha | str ha | array ha => exact Heap.get_lt ha
  · obtain ⟨c, hc⟩ := hreach v hv
    cases hc with
    | @array _ _ _ addrs _ ha hi =>
      cases (Option.some.inj (ha.symm.trans harr))
      exact ⟨addrs, rfl, hi⟩
    | null ha | int ha | float ha | bool ha | noStr ha | str ha => cases ha.symm.trans harr
  · obtain ⟨c, hc⟩ := hcontent k v hv
    obtain ⟨N, hN⟩ := hc.prints
    exact ⟨c, N, hc, fun n hn => hN n hn m rfl⟩

/-- The items of the array that `A` is bound to. -/
def itemsOfA (m : Mem Unit) : Option (List (Option Addr)) :=
  match (m.vars.dictGet plainSys.xxh32 (some (ascii ['A']))).bind m.heap.get with
  | some (.array items _ _) => match m.heap.get items with
    | some (.ptrs _ addrs) => some addrs
    | _ => none
  | _ => none

/-- `A=[1]`, and then `A=[A,A]`: both items are the array that `A` was before. -/
theorem values_acyclic_self :
    ∃ m₁ m₂ a, parseLine plainSys (cfgLoadDepth plainSys 16) (ascii ['A', '=', '[', '1', ']'])
      [] plainMem = some (0, m₁) ∧
      parseLine plainSys (cfgLoadDepth plainSys 16) (ascii ['A', '=', '[', 'A', ',', 'A', ']']) [] m₁ = some (0, m₂) ∧
      m₁.vars.dictGet plainSys.xxh32 (some (ascii ['A'])) = some a ∧ itemsOfA m₂ = some [some a, some a] ∧
      ∀ v, VarReaches plainSys m₂ v → ¬ Relation.TransGen (Item m₂.heap.get) v v := by
  have hruns : ((do
      let first ← parseLine plainSys (cfgLoadDepth plainSys 16) (ascii ['A', '=', '[', '1', ']']) [] plainMem
      let second ← parseLine plainSys (cfgLoadDepth plainSys 16) (ascii ['A', '=', '[', 'A', ',', 'A', ']']) [] first.2
      some (first.1, second.1, first.2.vars.dictGet plainSys.xxh32 (some (ascii ['A'])), itemsOfA second.2)) :
      Option (Int × Int × Option Addr × Option (List (Option Addr)))) = some (0, 0, some 0, some [some 0, some 0]) := by
    decide +kernel
  obtain ⟨⟨rc₁, m₁⟩, h₁, hrest⟩ := Option.bind_eq_some_iff.mp hruns
  obtain ⟨⟨rc₂, m₂⟩, h₂, hend⟩ := Option.bind_eq_some_iff.mp hrest
  simp only [Option.some.injEq, Prod.mk.injEq] at hend
  obtain ⟨rfl, rfl, hbound, hitems⟩ := hend
  exact ⟨m₁, m₂, 0, h₁, h₂, hbound, hitems, (values_acyclic (.line (.line (.fresh plainMem_new) h₁) h₂)).1⟩

end KanekFoundations.Cfg
