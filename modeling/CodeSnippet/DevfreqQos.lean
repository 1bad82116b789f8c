/-
CodeSnippet/DevfreqQos.lean

Loading and unloading src/kernel_module/qos/devfreq-qos.c.  Init cuts a list of
compatible strings at its semicolons and registers a device for every string
that leads to a devfreq; exit takes back what it finds in the class.  What a
failing registration has acquired is released again, but the list itself, the
devices' data and the references to the nodes are never given back.

A piece of memory is named by the registration that allocated it.

Main results:
  * `register_eq` — a registration faults, adds one device with the next minor number,
    or leaves everything but the references to nodes as it was.
  * `registerLoop_eq`, `registerAll_eq` — the loop over the compatible strings.
  * `devfreq_lifetime` — what there is after init, and what is left after exit.
-/
import CodeSnippet.CpufreqQos
import CodeSnippet.CString
import CodeSnippet.CInt

namespace CodeSnippet

open Memory

/-! ### The module -/

def nrDevfreqs : ℕ := 10

def eNoDev : ℤ := 19
def eNoData : ℤ := 61

/-- What is allocated: the copy of the list, and the data of the device that the
`k`-th registration adds. -/
inductive DevfreqMemory
  | compatibles
  | qosDev (k : ℕ)
  deriving DecidableEq

/-- `devfreq_qos_dev_t`, with the registration that allocated it and the minor
number of its `cdev`. -/
structure DevfreqQosDev where
  k : ℕ
  df : ErrPtr
  minor : ℕ
  deriving DecidableEq

/-- What the kernel answers to the calls of a registration. -/
structure DevfreqAnswers where
  ofFindCompatibleNode : Bool
  devfreqGetDevfreqByNode : ErrPtr
  kzalloc : Bool
  cdevAdd : ℤ
  deviceCreate : ErrPtr

/-- The module parameters and the answers; the ones to the `k`-th registration
depend on the string. -/
structure DevfreqEnv where
  devMinor : ℕ
  compatibles : Block UInt8
  classCreate : ErrPtr
  allocChrdevRegion : ℤ
  major : ℕ
  kstrdup : Bool
  answers : ℕ → List UInt8 → DevfreqAnswers

/-- The variables of the module, and what it holds: classes, regions of device
numbers, devices of the class with their data, references to nodes and memory. -/
structure DevfreqQos where
  devMajor : ℕ
  devMinor : ℕ
  devfreqQosClass : ErrPtr
  classes : ℕ
  regions : List (ℕ × ℕ)
  cdevs : List DevfreqQosDev
  devices : List DevfreqQosDev
  nodes : ℕ
  memory : List DevfreqMemory

namespace DevfreqQos

/-- The module before it is loaded. -/
def unloaded (devMinor : ℕ) : DevfreqQos := ⟨0, devMinor, .null, 0, [], [], [], 0, []⟩

def kfree (st : DevfreqQos) (m : DevfreqMemory) : DevfreqQos :=
  { st with memory := st.memory.filter (· ≠ m) }

def cdevDel (st : DevfreqQos) (d : DevfreqQosDev) : DevfreqQos :=
  { st with cdevs := st.cdevs.filter (· ≠ d) }

def deviceDestroy (st : DevfreqQos) (minor : ℕ) : DevfreqQos :=
  { st with devices := st.devices.filter fun d => d.minor ≠ minor }

/-- `if (devfreq_qos_class) { class_destroy(devfreq_qos_class); ... }`. -/
def destroyClass (st : DevfreqQos) : DevfreqQos :=
  if st.devfreqQosClass = .null then st
  else { st with classes := st.classes - 1, devfreqQosClass := .null }

end DevfreqQos

/-- The `k`-th registration: the return value and the state, or nothing where an
error number is used as a pointer. -/
def devfreqQosRegisterByCompatible (k : ℕ) (answers : DevfreqAnswers) (st : DevfreqQos) :
    Option (ℤ × DevfreqQos) :=
  if st.devMinor ≥ nrDevfreqs - 1 then some (-eNoData, st)
  else if answers.ofFindCompatibleNode = false then some (-eNoEnt, st)
  else
    let st := { st with nodes := st.nodes + 1 }
    if answers.devfreqGetDevfreqByNode = .null then some (-eNoDev, st)
    else if answers.kzalloc = false then some (-eNoMem, st)
    else
      let qosDev : DevfreqQosDev := ⟨k, answers.devfreqGetDevfreqByNode, st.devMinor⟩
      let st :=
        { st with memory := st.memory ++ [DevfreqMemory.qosDev k], devMinor := st.devMinor + 1 }
      let ret := answers.cdevAdd
      if ret ≠ 0 then
        let st := { st with devMinor := st.devMinor - 1 }
        some (ret, st.kfree (DevfreqMemory.qosDev k))
      else
        let st := { st with cdevs := st.cdevs ++ [qosDev] }
        -- the name of the new device is that of `df`
        if isErr qosDev.df then none
        else if isErr answers.deviceCreate then
          let ret := ptrErr answers.deviceCreate
          let st := st.cdevDel qosDev
          let st := { st with devMinor := st.devMinor - 1 }
          some (ret, st.kfree (DevfreqMemory.qosDev k))
        else some (0, { st with devices := st.devices ++ [qosDev] })

/-- `while ((devfreq_comp = strsep(&sep, ";")) != NULL)`; `strsep` returns `NULL`
when `sep` is `NULL`. -/
def registerLoop (answers : ℕ → List UInt8 → DevfreqAnswers) :
    ℕ → Block UInt8 → Option ℕ → ℕ → DevfreqQos → Option DevfreqQos
  | 0, _, _, _, _ => none
  | _ + 1, _, none, _, st => some st
  | fuel + 1, b, some comp, k, st => do
      let (sep, b) ← b.strsep comp (';'.toUInt8)
      let devfreqComp ← b.cstr comp
      let (_, st) ← devfreqQosRegisterByCompatible k (answers k devfreqComp) st
      registerLoop answers fuel b sep (k + 1) st

/-- The return value and the state. -/
def devFreqQosDrvInit (env : DevfreqEnv) (st : DevfreqQos) : Option (ℤ × DevfreqQos) :=
  if st.devfreqQosClass = .null ∧ isErr env.classCreate then some (ptrErr env.classCreate, st)
  else
    let st := if st.devfreqQosClass = .null then
      { st with classes := st.classes + 1, devfreqQosClass := env.classCreate } else st
    let ret := env.allocChrdevRegion
    if ret < 0 then some (ret, st.destroyClass)
    else
      let st := { st with
        regions := st.regions ++ [(env.major, st.devMinor)]
        devMajor := env.major }
      if env.kstrdup = false then some (0, st)
      else do
        let list ← env.compatibles.cstr 0
        let st := { st with memory := st.memory ++ [DevfreqMemory.compatibles] }
        let b : Block UInt8 := (⟨list.length + 1, fun _ => 0⟩ : Block UInt8).overlay list
        -- `sep` is `NULL` after the loop, so that `kfree` frees nothing
        let st ← registerLoop env.answers (list.length + 2) b (some 0) 0 st
        some (0, st)

/-- `devno` does not matter: the device has the minor number of its data. -/
def devfreqQosDestory (st : DevfreqQos) (qosDev : DevfreqQosDev) : DevfreqQos :=
  let st := st.deviceDestroy qosDev.minor
  let st := st.cdevDel qosDev
  { st with devMinor := st.devMinor - 1 }

def devFreqQosDrvExit (st : DevfreqQos) : DevfreqQos :=
  let st := st.devices.foldl devfreqQosDestory st
  let st := if st.devMajor ≠ 0 then
    { st with regions := st.regions.filter (· ≠ (st.devMajor, 0)) } else st
  st.destroyClass

/-! ### One registration -/

/-- No call of the registration fails. -/
def DevfreqAnswers.Adds (answers : DevfreqAnswers) : Prop :=
  answers.ofFindCompatibleNode = true ∧ answers.devfreqGetDevfreqByNode ≠ .null ∧
    answers.kzalloc = true ∧ answers.cdevAdd = 0 ∧ isErr answers.deviceCreate = false

instance (answers : DevfreqAnswers) : Decidable answers.Adds := inferInstanceAs (Decidable (_ ∧ _))

/-- The devices of the registrations that no call failed, as long as there are
minor numbers. -/
def numbered (base : ℕ) (adding : List (ℕ × ErrPtr)) : List DevfreqQosDev :=
  (adding.take (nrDevfreqs - 1 - base)).mapIdx fun i a => ⟨a.1, a.2, base + i⟩

theorem numbered_length (base : ℕ) (adding : List (ℕ × ErrPtr)) :
    (numbered base adding).length = min (nrDevfreqs - 1 - base) adding.length := by
  rw [numbered, List.length_mapIdx, List.length_take]

theorem numbered_append (base : ℕ) (adding : List (ℕ × ErrPtr)) (a : ℕ × ErrPtr) :
    numbered base (adding ++ [a]) =
      if base + (numbered base adding).length < nrDevfreqs - 1 then
        numbered base adding ++ [⟨a.1, a.2, base + (numbered base adding).length⟩]
      else numbered base adding := by
  rw [numbered_length]
  by_cases hroom : adding.length < nrDevfreqs - 1 - base
  · rw [min_eq_right hroom.le, if_pos (by omega), numbered, numbered,
      List.take_of_length_le (by rw [List.length_append, List.length_singleton]; exact hroom),
      List.take_of_length_le hroom.le, List.mapIdx_concat]
  · rw [if_neg (by omega), numbered, numbered, List.take_append_of_le_length (not_lt.mp hroom)]

theorem numbered_minor (base : ℕ) (adding : List (ℕ × ErrPtr)) :
    (numbered base adding).map (·.minor) = List.range' base (numbered base adding).length := by
  induction adding using List.reverseRecOn with
  | nil => simp [numbered]
  | append_singleton adding a ih =>
      rw [numbered_append]
      split
      · rw [List.map_append, ih, List.length_append, List.length_singleton, List.range'_1_concat]
        rfl
      · exact ih

theorem numbered_k {base : ℕ} {adding : List (ℕ × ErrPtr)} {d : DevfreqQosDev}
    (h : d ∈ numbered base adding) : (d.k, d.df) ∈ adding := by
  obtain ⟨i, hi, rfl⟩ := List.mem_mapIdx.mp h
  exact List.mem_of_mem_take (List.getElem_mem _)

/-- The module with some devices. -/
def DevfreqQos.holding (st : DevfreqQos) (devs : List DevfreqQosDev) (nodes : ℕ) : DevfreqQos :=
  { st with
    devMinor := st.devMinor + devs.length
    cdevs := devs
    devices := devs
    nodes := nodes
    memory := .compatibles :: devs.map fun d => .qosDev d.k }

/-- An error number is used as the pointer to the devfreq. -/
def DevfreqAnswers.Faults (answers : DevfreqAnswers) : Prop :=
  answers.ofFindCompatibleNode = true ∧ isErr answers.devfreqGetDevfreqByNode = true ∧
    answers.kzalloc = true ∧ answers.cdevAdd = 0

instance (answers : DevfreqAnswers) : Decidable answers.Faults :=
  inferInstanceAs (Decidable (_ ∧ _))

/-- How many references to nodes a registration takes. -/
def DevfreqAnswers.refs (answers : DevfreqAnswers) : ℕ :=
  if answers.ofFindCompatibleNode then 1 else 0

/-- **One registration**, while there is a minor number, faults or adds a device with
that number or leaves the devices, their numbers and the memory as they were. -/
theorem register_eq {st : DevfreqQos} {k nodes : ℕ} {devs : List DevfreqQosDev}
    {answers : DevfreqAnswers} (hk : ∀ d ∈ devs, d.k < k) :
    (devfreqQosRegisterByCompatible k answers (st.holding devs nodes)).map Prod.snd =
      if st.devMinor + devs.length < nrDevfreqs - 1 then
        if answers.Faults then none
        else some (st.holding
          (if answers.Adds then
            devs ++ [⟨k, answers.devfreqGetDevfreqByNode, st.devMinor + devs.length⟩] else devs)
          (nodes + answers.refs))
      else some (st.holding devs nodes) := by
  have hne : ∀ d ∈ devs, ¬ d.k = k := fun d hd => (hk d hd).ne
  -- a registration that does not add a device
  have hkeeps : ¬ answers.Faults → ¬ answers.Adds →
      (if answers.Faults then none
        else some (st.holding
          (if answers.Adds then
            devs ++ [⟨k, answers.devfreqGetDevfreqByNode, st.devMinor + devs.length⟩] else devs)
          (nodes + answers.refs))) = some (st.holding devs (nodes + answers.refs)) :=
    fun hfaults hadds => by rw [if_neg hfaults, if_neg hadds]
  rw [devfreqQosRegisterByCompatible]
  by_cases hroom : st.devMinor + devs.length < nrDevfreqs - 1
  · rw [if_neg (show ¬ (st.holding devs nodes).devMinor ≥ nrDevfreqs - 1 from not_le.mpr hroom),
      if_pos hroom]
    by_cases hnode : answers.ofFindCompatibleNode = false
    · rw [if_pos hnode, hkeeps (fun hfaults => by simp [DevfreqAnswers.Faults, hnode] at hfaults)
        (fun hadds => by simp [DevfreqAnswers.Adds, hnode] at hadds)]
      simp [DevfreqAnswers.refs, hnode]
    have hrefs : answers.refs = 1 := if_pos (by simpa using hnode)
    rw [if_neg hnode, hrefs]
    rw [hrefs] at hkeeps
    -- from here on the reference to the node stays, on every way out
    by_cases hdf : answers.devfreqGetDevfreqByNode = .null
    · rw [if_pos hdf, hkeeps (fun hfaults => by simp [DevfreqAnswers.Faults, hdf, isErr] at hfaults)
        (fun hadds => hadds.2.1 hdf)]
      rfl
    rw [if_neg hdf]
    by_cases hkzalloc : answers.kzalloc = false
    · rw [if_pos hkzalloc,
        hkeeps (fun hfaults => by simp [DevfreqAnswers.Faults, hkzalloc] at hfaults)
          (fun hadds => by simp [DevfreqAnswers.Adds, hkzalloc] at hadds)]
      rfl
    rw [if_neg hkzalloc]
    by_cases hadd : answers.cdevAdd ≠ 0
    · -- the memory is freed, and no other device has this number
      simp only [if_pos hadd]
      rw [hkeeps (fun hfaults => hadd hfaults.2.2.2) (fun hadds => hadd hadds.2.2.2.1)]
      refine congrArg some ?_
      simpa [DevfreqQos.holding, DevfreqQos.kfree] using hne
    simp only [if_neg hadd]
    by_cases herr : isErr answers.devfreqGetDevfreqByNode = true
    · have hfaults : answers.Faults :=
        ⟨by simpa using hnode, herr, by simpa using hkzalloc, not_not.mp hadd⟩
      simp only [if_pos herr, if_pos hfaults, Option.map_none]
    simp only [if_neg herr]
    have hfaults : ¬ answers.Faults := fun hfaults => herr hfaults.2.1
    by_cases hcreate : isErr answers.deviceCreate = true
    · -- its own cdev and memory go, the earlier devices keep theirs
      simp only [if_pos hcreate]
      rw [hkeeps hfaults (fun hadds => by simp [DevfreqAnswers.Adds, hcreate] at hadds)]
      have hcdev : ∀ d ∈ devs, (decide ¬ d = ⟨k, answers.devfreqGetDevfreqByNode,
          st.devMinor + devs.length⟩) = true :=
        fun d hd => decide_eq_true fun e => hne d hd (by rw [e])
      refine congrArg some ?_
      simpa [DevfreqQos.holding, DevfreqQos.kfree, DevfreqQos.cdevDel] using ⟨hcdev, hne⟩
    · have hadds : answers.Adds := ⟨by simpa using hnode, hdf, by simpa using hkzalloc,
        not_not.mp hadd, by simpa using hcreate⟩
      rw [if_neg hcreate, if_neg hfaults, if_pos hadds]
      simp [DevfreqQos.holding, Nat.add_assoc]
  · rw [if_pos (show (st.holding devs nodes).devMinor ≥ nrDevfreqs - 1 from not_lt.mp hroom),
      if_neg hroom]
    rfl

/-! ### The loop -/

/-- The registrations of the names one after another, from the `k`-th on. -/
def registerAll (answers : ℕ → List UInt8 → DevfreqAnswers) :
    ℕ → List (List UInt8) → DevfreqQos → Option DevfreqQos
  | _, [], st => some st
  | k, name :: names, st =>
      ((devfreqQosRegisterByCompatible k (answers k name) st).map Prod.snd).bind
        (registerAll answers (k + 1) names)

/-- The loop ends, and it registers the strings between the semicolons. -/
theorem registerLoop_eq {answers : ℕ → List UInt8 → DevfreqAnswers} {fuel : ℕ}
    {b : Block UInt8} {p k : ℕ} {t : List UInt8} {st : DevfreqQos} (hb : b.Spells p t)
    (hfuel : t.length + 2 ≤ fuel) :
    registerLoop answers fuel b (some p) k st =
      registerAll answers k (t.splitOn (';'.toUInt8)) st := by
  induction fuel generalizing b p k t st with
  | zero => omega
  | succ fuel ih =>
      rw [registerLoop]
      by_cases hsep : ';'.toUInt8 ∈ t
      · obtain ⟨name, rest, rfl, hname⟩ := List.eq_append_cons_of_mem hsep
        obtain ⟨b', hstrsep, -, hnameString, hrest⟩ := hb.strsep_mem hname
        rw [List.length_append, List.length_cons] at hfuel
        simp only [hstrsep, Option.bind_eq_bind, Option.bind_some,
          Block.cstr_eq_some_iff.mpr hnameString]
        rw [List.splitOn_append_cons_self_of_not_mem hname, registerAll, Option.bind_map]
        refine Option.bind_congr fun r _ => ?_
        exact ih hrest (by omega)
      · simp only [hb.strsep_notMem hsep (by decide), Option.bind_eq_bind, Option.bind_some,
          Block.cstr_eq_some_iff.mpr hb]
        rw [List.splitOn_eq_singleton hsep, registerAll, Option.bind_map]
        obtain ⟨fuel, rfl⟩ : ∃ m, fuel = m + 1 := ⟨fuel - 1, by omega⟩
        rfl

/-- The registrations from the `k`-th on that no call failed. -/
def addingFrom (answers : ℕ → List UInt8 → DevfreqAnswers) :
    ℕ → List (List UInt8) → List (ℕ × ErrPtr)
  | _, [] => []
  | k, name :: names =>
      if (answers k name).Adds then
        (k, (answers k name).devfreqGetDevfreqByNode) :: addingFrom answers (k + 1) names
      else addingFrom answers (k + 1) names

/-- The answers to the registrations from the `k`-th on that find one of the `room`
minor numbers free. -/
def reachedFrom (answers : ℕ → List UInt8 → DevfreqAnswers) :
    ℕ → ℕ → List (List UInt8) → List DevfreqAnswers
  | 0, _, _ => []
  | _ + 1, _, [] => []
  | room + 1, k, name :: names =>
      answers k name ::
        reachedFrom answers (if (answers k name).Adds then room else room + 1) (k + 1) names

theorem reachedFrom_zero (answers : ℕ → List UInt8 → DevfreqAnswers) (k : ℕ)
    (names : List (List UInt8)) : reachedFrom answers 0 k names = [] := by
  cases names <;> rfl

theorem reachedFrom_nil (answers : ℕ → List UInt8 → DevfreqAnswers) (room k : ℕ) :
    reachedFrom answers room k [] = [] := by
  cases room <;> rfl

/-- **All registrations**: the devices of those that no call failed, as long as there
are numbers, and a reference for each node that one of them found until then. -/
theorem registerAll_eq {answers : ℕ → List UInt8 → DevfreqAnswers} {st : DevfreqQos}
    {k : ℕ} {adding : List (ℕ × ErrPtr)} (hadding : ∀ a ∈ adding, a.1 < k)
    (names : List (List UInt8)) (room nodes : ℕ)
    (hroom : room = nrDevfreqs - 1 - (st.devMinor + (numbered st.devMinor adding).length)) :
    registerAll answers k names (st.holding (numbered st.devMinor adding) nodes) =
      if ∃ a ∈ reachedFrom answers room k names, a.Faults then none
      else some (st.holding (numbered st.devMinor (adding ++ addingFrom answers k names))
        (nodes + ((reachedFrom answers room k names).map DevfreqAnswers.refs).sum)) := by
  induction names generalizing k nodes adding room with
  | nil => simp [registerAll, reachedFrom_nil, addingFrom]
  | cons name names ih =>
      rw [registerAll, register_eq fun d hd => hadding _ (numbered_k hd)]
      have hadding' : ∀ a ∈ adding, a.1 < k + 1 := fun a ha => (hadding a ha).trans_le k.le_succ
      have hmore : ∀ a ∈ adding ++ [(k, (answers k name).devfreqGetDevfreqByNode)],
          a.1 < k + 1 := by
        intro a ha
        rcases List.mem_append.mp ha with ha | ha
        · exact hadding' a ha
        · rw [List.mem_singleton.mp ha]
          exact Nat.lt_succ_self k
      have hnumbered := numbered_append st.devMinor adding
        (k, (answers k name).devfreqGetDevfreqByNode)
      rcases room with _ | room
      · -- no number is left
        rw [if_neg (by omega), Option.bind_some]
        rw [if_neg (by omega)] at hnumbered
        by_cases hadds : (answers k name).Adds
        · have hrest := ih hmore 0 nodes (by rw [hnumbered]; exact hroom)
          rw [hnumbered] at hrest
          rw [hrest, addingFrom, if_pos hadds, List.append_assoc, List.singleton_append,
            reachedFrom_zero, reachedFrom_zero]
        · rw [ih hadding' _ _ hroom, addingFrom, if_neg hadds, reachedFrom_zero, reachedFrom_zero]
      · rw [if_pos (by omega), reachedFrom]
        rw [if_pos (by omega)] at hnumbered
        by_cases hfaults : (answers k name).Faults
        · rw [if_pos hfaults, Option.bind_none, if_pos ⟨_, List.mem_cons_self .., hfaults⟩]
        simp only [List.mem_cons, exists_eq_or_imp, hfaults, false_or]
        rw [if_neg not_false, Option.bind_some, List.map_cons, List.sum_cons, ← Nat.add_assoc]
        by_cases hadds : (answers k name).Adds
        · have hrest := ih hmore room (nodes + (answers k name).refs) (by
            rw [hnumbered, List.length_append, List.length_singleton]
            omega)
          rw [hnumbered] at hrest
          rw [if_pos hadds, if_pos hadds]
          refine hrest.trans ?_
          rw [addingFrom, if_pos hadds, List.append_assoc,
            List.singleton_append]
        · rw [if_neg hadds, if_neg hadds, ih hadding' _ _ hroom, addingFrom, if_neg hadds]

/-! ### Init and exit -/

/-- The loop over the devices of the class. -/
theorem destroyAll_eq {devs : List DevfreqQosDev} (hminors : (devs.map (·.minor)).Nodup)
    {st : DevfreqQos} (hdevices : st.devices = devs) (hcdevs : st.cdevs = devs) :
    devs.foldl devfreqQosDestory st =
      { st with devices := [], cdevs := [], devMinor := st.devMinor - devs.length } := by
  induction devs generalizing st with
  | nil =>
      obtain ⟨major, minor, cls, classes, regions, cdevs, devices, nodes, memory⟩ := st
      cases hdevices
      cases hcdevs
      rfl
  | cons d devs ih =>
      obtain ⟨hd, hrest⟩ := List.nodup_cons.mp hminors
      have hothers : ∀ d' ∈ devs, d'.minor ≠ d.minor :=
        fun d' hd' e => hd (List.mem_map.mpr ⟨d', hd', e⟩)
      have hdevices' : (devfreqQosDestory st d).devices = devs := by
        show st.devices.filter (fun d' => d'.minor ≠ d.minor) = devs
        rw [hdevices, List.filter_cons_of_neg (by simp), List.filter_eq_self]
        exact fun d' hd' => by simpa using hothers d' hd'
      have hcdevs' : (devfreqQosDestory st d).cdevs = devs := by
        show st.cdevs.filter (· ≠ d) = devs
        rw [hcdevs, List.filter_cons_of_neg (by simp), List.filter_eq_self]
        exact fun d' hd' => decide_eq_true fun e => hothers d' hd' (by rw [e])
      rw [List.foldl_cons, ih hrest hdevices' hcdevs', List.length_cons]
      show { st with devices := [], cdevs := [], devMinor := st.devMinor - 1 - devs.length } = _
      rw [Nat.sub_sub, Nat.add_comm 1]

/-- The devices that init adds. -/
def DevfreqEnv.devs (env : DevfreqEnv) (list : List UInt8) : List DevfreqQosDev :=
  if env.kstrdup then
    numbered env.devMinor (addingFrom env.answers 0 (list.splitOn (';'.toUInt8)))
  else []

/-- The answers to the registrations of init that find a minor number free. -/
def DevfreqEnv.reached (env : DevfreqEnv) (list : List UInt8) : List DevfreqAnswers :=
  if env.kstrdup then
    reachedFrom env.answers (nrDevfreqs - 1 - env.devMinor) 0 (list.splitOn (';'.toUInt8))
  else []

/-- How many references to nodes init takes. -/
def DevfreqEnv.nodes (env : DevfreqEnv) (list : List UInt8) : ℕ :=
  ((env.reached list).map DevfreqAnswers.refs).sum

/-- What is still there after exit. -/
def DevfreqEnv.leftBehind (env : DevfreqEnv) (list : List UInt8) : DevfreqQos where
  devMajor := env.major
  devMinor := env.devMinor
  devfreqQosClass := .null
  classes := 0
  regions := if env.major ≠ 0 ∧ env.devMinor = 0 then [] else [(env.major, env.devMinor)]
  cdevs := []
  devices := []
  nodes := env.nodes list
  memory := if env.kstrdup then
    .compatibles :: (env.devs list).map fun d => .qosDev d.k else []

/-- The module after an init that returns 0. -/
structure DevfreqQos.Loaded (env : DevfreqEnv) (list : List UInt8) (st : DevfreqQos) :
    Prop where
  cls : st.devfreqQosClass = env.classCreate ∧ st.classes = 1
  region : st.devMajor = env.major ∧ st.regions = [(env.major, env.devMinor)]
  devices : st.devices = env.devs list
  cdevs : st.cdevs = env.devs list
  next : st.devMinor = env.devMinor + (env.devs list).length
  minors : (env.devs list).map (·.minor) = List.range' env.devMinor (env.devs list).length
  nodes : st.nodes = env.nodes list
  memory : st.memory = if env.kstrdup then
    .compatibles :: (env.devs list).map fun d => .qosDev d.k else []

theorem DevfreqQos.Loaded.exit_eq {env : DevfreqEnv} {list : List UInt8} {st : DevfreqQos}
    (h : st.Loaded env list) (hclass : env.classCreate ≠ .null) :
    devFreqQosDrvExit st = env.leftBehind list := by
  have hnodup : ((env.devs list).map (·.minor)).Nodup := by
    rw [h.minors]
    exact List.nodup_range'
  have hdestroy := destroyAll_eq hnodup h.devices h.cdevs
  rw [h.next, Nat.add_sub_cancel] at hdestroy
  have hcls : st.devfreqQosClass ≠ .null := by rw [h.cls.1]; exact hclass
  rw [devFreqQosDrvExit, h.devices, hdestroy]
  obtain ⟨major, minor, cls, classes, regions, cdevs, devices, nodes, memory⟩ := st
  obtain ⟨⟨hcls', hclasses⟩, ⟨hmajor, hregions⟩, -, -, -, -, hnodes, hmemory⟩ := h
  simp only at hcls' hclasses hmajor hregions hnodes hmemory hcls
  subst hclasses hmajor hregions hnodes hmemory
  by_cases hzero : env.major = 0 <;> by_cases hbase : env.devMinor = 0 <;>
    simp [DevfreqQos.destroyClass, DevfreqEnv.leftBehind, hcls, hzero, hbase]

/-- The calls before the loop succeed. -/
def DevfreqEnv.Enters (env : DevfreqEnv) : Prop :=
  isErr env.classCreate = false ∧ 0 ≤ env.allocChrdevRegion

theorem isErr_lt {p : ErrPtr} (h : isErr p = true) : ptrErr p < 0 := by
  rcases p with _ | addr | errno
  · cases h
  · cases h
  · show -(errno : ℤ) < 0
    have hpos := errno.pos
    omega

/-- An init that a call before the loop makes fail. -/
theorem devFreqQosDrvInit_refused {env : DevfreqEnv} (hclass : env.classCreate ≠ .null)
    (h : ¬ env.Enters) : ∃ ret, devFreqQosDrvInit env (.unloaded env.devMinor) =
      some (ret, .unloaded env.devMinor) ∧ ret < 0 := by
  rw [devFreqQosDrvInit]
  by_cases herr : isErr env.classCreate = true
  · exact ⟨_, if_pos ⟨rfl, herr⟩, isErr_lt herr⟩
  · have hregion : env.allocChrdevRegion < 0 := by
      by_contra hnot
      exact h ⟨by simpa using herr, not_lt.mp hnot⟩
    refine ⟨env.allocChrdevRegion, ?_, hregion⟩
    rw [if_neg (fun hc => herr hc.2)]
    simp [hregion, DevfreqQos.unloaded, DevfreqQos.destroyClass, hclass]

/-- An init that gets to the loop. -/
theorem devFreqQosDrvInit_enters {env : DevfreqEnv} {list : List UInt8}
    (hlist : env.compatibles.Spells 0 list) (h : env.Enters) :
    if ∃ a ∈ env.reached list, a.Faults then
      devFreqQosDrvInit env (.unloaded env.devMinor) = none
    else ∃ st, devFreqQosDrvInit env (.unloaded env.devMinor) = some (0, st) ∧
      st.Loaded env list := by
  obtain ⟨hcreated, hregion⟩ := h
  have hinit : devFreqQosDrvInit env (.unloaded env.devMinor) =
      let st : DevfreqQos :=
        ⟨env.major, env.devMinor, env.classCreate, 1, [(env.major, env.devMinor)], [], [], 0, []⟩
      if env.kstrdup = false then some (0, st)
      else (registerAll env.answers 0 (list.splitOn (';'.toUInt8)) (st.holding [] 0)).bind
        fun st => some (0, st) := by
    rw [devFreqQosDrvInit, if_neg (by simp [hcreated])]
    simp only [not_lt.mpr hregion, if_false, Block.cstr_eq_some_iff.mpr hlist,
      Option.bind_eq_bind, Option.bind_some]
    rw [registerLoop_eq (Block.spells_overlay_iff.mpr ⟨hlist.noNul, Nat.lt_succ_self _⟩) le_rfl]
    rfl
  rw [hinit]
  by_cases hdup : env.kstrdup = false
  · have hdevs : env.devs list = [] := by simp [DevfreqEnv.devs, hdup]
    have hreached : env.reached list = [] := by simp [DevfreqEnv.reached, hdup]
    have hnodes : env.nodes list = 0 := by simp [DevfreqEnv.nodes, hreached]
    rw [if_neg (by simp [hreached])]
    refine ⟨_, if_pos hdup, ⟨rfl, rfl⟩, ⟨rfl, rfl⟩, hdevs.symm, hdevs.symm, ?_, ?_,
      hnodes.symm, ?_⟩
    · rw [hdevs]
      rfl
    · rw [hdevs]
      rfl
    · rw [hdup]
      rfl
  · have hdup' : env.kstrdup = true := by simpa using hdup
    have hdevs : env.devs list =
        numbered env.devMinor (addingFrom env.answers 0 (list.splitOn (';'.toUInt8))) := by
      rw [DevfreqEnv.devs, hdup', if_pos rfl]
    have hreached : env.reached list =
        reachedFrom env.answers (nrDevfreqs - 1 - env.devMinor) 0
          (list.splitOn (';'.toUInt8)) := by
      rw [DevfreqEnv.reached, hdup', if_pos rfl]
    let st₀ : DevfreqQos :=
      ⟨env.major, env.devMinor, env.classCreate, 1, [(env.major, env.devMinor)], [], [], 0, []⟩
    have hnone : ∀ a ∈ ([] : List (ℕ × ErrPtr)), a.1 < 0 := nofun
    have hempty : numbered st₀.devMinor [] = [] := by simp [numbered]
    have hroom : nrDevfreqs - 1 - env.devMinor =
        nrDevfreqs - 1 - (st₀.devMinor + (numbered st₀.devMinor []).length) := by
      rw [hempty]
      rfl
    have hall := @registerAll_eq env.answers st₀ 0 [] hnone (list.splitOn (';'.toUInt8)) _ 0 hroom
    rw [hempty, ← hreached, List.nil_append, ← hdevs, zero_add] at hall
    simp only [if_neg hdup]
    rw [hall]
    split
    · rfl
    · exact ⟨_, rfl, ⟨rfl, rfl⟩, ⟨rfl, rfl⟩, rfl, rfl, rfl, hdevs ▸ numbered_minor _ _, rfl,
        by rw [hdup']; rfl⟩

/-- **Loading and unloading.**  Init returns unless an error number that stands for a
devfreq is used as a pointer.  One that fails leaves nothing behind.  After one that
returns 0 there is a device for each of the first strings whose registration no call
failed, with consecutive minor numbers; exit takes back the devices, the class and the
numbers, but the region only when its first minor number is 0, and neither the memory
nor a reference to a node. -/
theorem devfreq_lifetime {env : DevfreqEnv} (hclass : env.classCreate ≠ .null)
    {list : List UInt8} (hlist : env.compatibles.Spells 0 list) :
    (devFreqQosDrvInit env (.unloaded env.devMinor) = none ↔
      env.Enters ∧ ∃ a ∈ env.reached list, a.Faults) ∧
    ∀ ret st, devFreqQosDrvInit env (.unloaded env.devMinor) = some (ret, st) →
      (¬ env.Enters ∧ ret < 0 ∧ st = .unloaded env.devMinor) ∨
        (env.Enters ∧ ret = 0 ∧ st.Loaded env list ∧
          devFreqQosDrvExit st = env.leftBehind list) := by
  by_cases henters : env.Enters
  · have hinit := devFreqQosDrvInit_enters hlist henters
    split at hinit
    · rename_i hfaults
      rw [hinit]
      exact ⟨⟨fun _ => ⟨henters, hfaults⟩, fun _ => rfl⟩, nofun⟩
    · rename_i hfaults
      obtain ⟨st, hst, hloaded⟩ := hinit
      rw [hst]
      refine ⟨⟨nofun, fun h => absurd h.2 hfaults⟩, ?_⟩
      rintro _ _ ⟨⟩
      exact .inr ⟨henters, rfl, hloaded, hloaded.exit_eq hclass⟩
  · obtain ⟨ret, hret, hneg⟩ := devFreqQosDrvInit_refused hclass henters
    rw [hret]
    refine ⟨⟨nofun, fun h => absurd h.1 henters⟩, ?_⟩
    rintro _ _ ⟨⟩
    exact .inl ⟨henters, hneg, rfl⟩

/-- Three strings, "a", "b" and "c", the second of which leads to no node. -/
def threeCompatibles : DevfreqEnv where
  devMinor := 0
  compatibles := (⟨64, fun _ => 0⟩ : Block UInt8).overlay [97, 59, 98, 59, 99]
  classCreate := .valid 1
  allocChrdevRegion := 0
  major := 240
  kstrdup := true
  answers := fun k _ => ⟨decide (k ≠ 1), .valid k, true, 0, .valid k⟩

/-- `devfreq_lifetime` for the three strings: two devices, and two references to nodes
that stay. -/
theorem devfreq_lifetime_threeCompatibles : ∃ st,
    devFreqQosDrvInit threeCompatibles (.unloaded 0) = some (0, st) ∧
      st.Loaded threeCompatibles [97, 59, 98, 59, 99] ∧
      devFreqQosDrvExit st = threeCompatibles.leftBehind [97, 59, 98, 59, 99] ∧
      (devFreqQosDrvExit st).nodes = 2 := by
  have hlist : threeCompatibles.compatibles.Spells 0 [97, 59, 98, 59, 99] :=
    Block.spells_overlay_iff.mpr ⟨by decide, by decide⟩
  obtain ⟨hnone, hsome⟩ := @devfreq_lifetime threeCompatibles nofun _ hlist
  have henters : threeCompatibles.Enters := ⟨rfl, by decide⟩
  rcases hinit : devFreqQosDrvInit threeCompatibles (.unloaded 0) with _ | ⟨ret, st⟩
  · exact absurd (hnone.mp hinit).2 (by decide +kernel)
  · rcases hsome ret st hinit with ⟨hnot, -⟩ | ⟨-, rfl, hloaded, hexit⟩
    · exact absurd henters hnot
    · refine ⟨st, rfl, hloaded, hexit, ?_⟩
      rw [hexit]
      decide +kernel

end CodeSnippet
