import XmSigma.Logging.CtrlLoggerTable

/-!
# The rows of a `CtrlLogger`

The members of the logger follow the calls made so far, so every row it passes on is the one that
the calls describe. A call that gives data for a name registered after the last header is the one
exception: it does not return.

## Main definitions

* `CtrlLogger.Tracks`: the members follow the calls

## Main results

* `Tracks.apply`: a call keeps it, and passes on its row
* `rows_aligned`: all rows of every sequence of calls
-/

namespace XmSigma

namespace CtrlLogger

variable {D : Type*} {to_string : D → List UInt8} {l : CtrlLogger} {ops : List (Op D)} {op : Op D}
  {name : List UInt8} {i : ℕ}

theorem apply_addData (to_string : D → List UInt8) (l : CtrlLogger) (item_name : List UInt8)
    (data : Data D) :
    l.apply to_string (.addData item_name data) =
      l.addItemDataToEntry item_name (data.text to_string) := by
  cases data <;> rfl

theorem apply_addDataById (to_string : D → List UInt8) (l : CtrlLogger) (item_id : ℕ)
    (data : Data D) :
    l.apply to_string (.addDataById item_id data) =
      l.addItemDataToEntryById item_id (data.text to_string) := by
  cases data <;> rfl

/-! ### The members follow the calls -/

/-- What the members are after the calls `ops`. -/
structure Tracks (to_string : D → List UInt8) (ops : List (Op D)) (l : CtrlLogger) : Prop where
  counter : l.item_counter_ = (registered ops).length
  names : ∀ k : ℕ, l.entry_names_[k]? = (registered ops)[k]?
  ids : ∀ (name : List UInt8) (k : ℕ),
    l.entry_ids_[name]? = some k ↔ (registered ops)[k]? = some name
  head : l.head_added_ = true ↔ columns ops ≠ []
  data : l.item_data_ = (List.range (columns ops).length).map (value to_string ops)

theorem Tracks.init : Tracks to_string [] construct where
  counter := rfl
  names _ := by simp [CtrlLogger.construct, registered]
  ids _ _ := by simp [CtrlLogger.construct, registered]
  head := by simp [CtrlLogger.construct, columns]
  data := rfl

namespace Tracks

theorem length_data (h : Tracks to_string ops l) :
    l.item_data_.length = (columns ops).length := by
  rw [h.data, List.length_map, List.length_range]

theorem counter_eq_zero_iff (h : Tracks to_string ops l) :
    l.item_counter_ = 0 ↔ registered ops = [] := by
  rw [h.counter, List.length_eq_zero_iff]

theorem unknown_iff (h : Tracks to_string ops l) :
    l.entry_ids_[name]? = none ↔ name ∉ registered ops := by
  rw [Option.eq_none_iff_forall_ne_some, List.mem_iff_getElem?, not_exists]
  exact forall_congr' fun k => not_congr (h.ids name k)

/-- A name covered by the last header is stored at its place there. -/
theorem column_iff (h : Tracks to_string ops l) {k : ℕ} (hid : l.entry_ids_[name]? = some k) :
    (columns ops)[i]? = some name ↔ i = k ∧ k < (columns ops).length := by
  have hk := (h.ids name k).mp hid
  constructor
  · intro hi
    obtain ⟨hlt, -⟩ := List.getElem?_eq_some_iff.mp hi
    have hsame : (registered ops)[i]? = (registered ops)[k]? := by
      rw [hk, registered_getElem? hlt, hi]
    have hik := (List.getElem?_inj (hlt.trans_le (columns_isPrefix ops).length_le)
      (registered_nodup ops)).mp hsame
    exact ⟨hik, hik ▸ hlt⟩
  · rintro ⟨rfl, hlt⟩
    rw [← registered_getElem? hlt, hk]

/-- A call that neither registers nor covers: only the data may change. -/
theorem with_data (h : Tracks to_string ops l) (hname : op.name? = none)
    (hheader : op.header ops = none) {data : List (List UInt8)}
    (hdata : data = (List.range (columns ops).length).map (value to_string (ops ++ [op]))) :
    Tracks to_string (ops ++ [op]) { l with item_data_ := data } := by
  have hregistered : registered (ops ++ [op]) = registered ops := registered_of_none hname
  have hcolumns := columns_of_none hheader
  exact ⟨hregistered ▸ h.counter, hregistered ▸ h.names, hregistered ▸ h.ids, hcolumns ▸ h.head,
    hcolumns ▸ hdata⟩

/-- A call that does not store either. -/
theorem keep (h : Tracks to_string ops l) (hname : op.name? = none) (hheader : op.header ops = none)
    (hstores : ∀ i, op.stores to_string i ops = none) : Tracks to_string (ops ++ [op]) l := by
  have hvalue : value to_string (ops ++ [op]) = value to_string ops := by
    funext i
    rw [value_snoc, hstores]
    rfl
  exact h.with_data hname hheader (hvalue ▸ h.data)

/-- Registering a name leaves the header and the data as they are. -/
theorem addName (h : Tracks to_string ops l) (name : List UInt8) :
    Tracks to_string (ops ++ [.addName name]) (l.addItemNameToEntryHead name) := by
  have hcolumns : columns (ops ++ [.addName name]) = columns ops := columns_snoc ops _
  have hdata : l.item_data_ = (List.range (columns (ops ++ [.addName name])).length).map
      (value to_string (ops ++ [.addName name])) := by
    rw [h.data, hcolumns]
    exact List.map_congr_left fun i _ => (value_snoc to_string ops (.addName name) i).symm
  have hhead : l.head_added_ = true ↔ columns (ops ++ [.addName name]) ≠ [] := hcolumns ▸ h.head
  rw [addItemNameToEntryHead]
  cases hid : l.entry_ids_[name]? with
  | some k =>
    have hmem : name ∈ registered ops := List.mem_of_getElem? ((h.ids name k).mp hid)
    have hregistered : registered (ops ++ [.addName name]) = registered ops := by
      rw [registered_snoc]
      simp [Op.name?, Option.filter, hmem]
    exact ⟨hregistered ▸ h.counter, hregistered ▸ h.names, hregistered ▸ h.ids, hhead, hdata⟩
  | none =>
    have hmem := h.unknown_iff.mp hid
    have hregistered : registered (ops ++ [.addName name]) = registered ops ++ [name] := by
      rw [registered_snoc]
      simp [Op.name?, Option.filter, hmem]
    refine ⟨?_, fun k => ?_, fun name' k => ?_, hhead, hdata⟩
    · rw [hregistered, List.length_append, ← h.counter]
      rfl
    · simp only [hregistered, Std.TreeMap.getElem?_insert, Nat.compare_eq_eq, h.counter, h.names,
        Rows.getElem?_snoc]
    · simp only [hregistered, Std.TreeMap.getElem?_insert, Std.LawfulEqCmp.compare_eq_iff_eq,
        h.counter, Rows.getElem?_snoc]
      by_cases hname : name = name'
      · subst hname
        have hne : (registered ops)[k]? ≠ some name := fun hk => hmem (List.mem_of_getElem? hk)
        rw [if_pos rfl]
        split <;> simp_all
      · rw [if_neg hname, h.ids]
        split
        · next heq => simp [hname, ← heq]
        · rfl

/-- Storing a text in a field of the row. -/
theorem store (h : Tracks to_string ops l) (hname : op.name? = none) (hheader : op.header ops = none)
    {k : ℕ} (hk : k < (columns ops).length) {text : List UInt8}
    (hstores : ∀ i, op.stores to_string i ops = if i = k then some text else none) :
    ∃ l', l.store k text = some l' ∧ Tracks to_string (ops ++ [op]) l' := by
  refine ⟨_, if_pos (h.length_data ▸ hk), h.with_data hname hheader ?_⟩
  rw [h.data]
  refine List.ext_getElem? fun i => ?_
  simp only [List.getElem?_set, List.getElem?_map, List.length_map, List.length_range]
  by_cases hi : i < (columns ops).length
  · rw [List.getElem?_range hi, Option.map_some, Option.map_some, value_snoc, hstores]
    by_cases hik : i = k
    · subst hik
      simp [hk]
    · rw [if_neg (Ne.symm hik), if_neg hik]
      rfl
  · have hki : k ≠ i := fun hki => hi (hki ▸ hk)
    rw [if_neg hki, List.getElem?_eq_none (by rw [List.length_range]; omega)]
    rfl

/-- Data for an id: stored if the last header covers it. -/
theorem addDataById (h : Tracks to_string ops l) (item_id : ℕ) (data : Data D) :
    ∃ o, l.addItemDataToEntryById item_id (data.text to_string) = some o ∧
      Tracks to_string (ops ++ [.addDataById item_id data]) o.logger ∧ o.row = none := by
  have hlen := h.length_data
  by_cases hid : item_id < (columns ops).length
  · have hne : columns ops ≠ [] := fun hnil => by simp [hnil] at hid
    have hstores : ∀ i, (Op.addDataById item_id data).stores to_string i ops =
        if i = item_id then some (data.text to_string) else none := by
      intro i
      rw [Op.stores]
      by_cases hi : i = item_id
      · rw [if_pos hi, if_pos ⟨hi.symm, hi ▸ hid⟩]
      · rw [if_neg hi, if_neg fun hii => hi hii.1.symm]
    obtain ⟨l', hl', htracks⟩ := h.store rfl rfl hid hstores
    refine ⟨{ logger := l' }, ?_, htracks, rfl⟩
    rw [addItemDataToEntryById, h.head.mpr hne, hlen, if_neg (by simp), if_neg (by omega), hl']
    rfl
  · have hkeep : Tracks to_string (ops ++ [.addDataById item_id data]) l := by
      refine h.keep rfl rfl fun i => ?_
      rw [Op.stores, if_neg fun hii => hid (by omega)]
    rw [addItemDataToEntryById, hlen]
    split
    · exact ⟨_, rfl, hkeep, rfl⟩
    · rw [if_pos (by omega)]
      exact ⟨_, rfl, hkeep, rfl⟩

/-- Data for a name: stored if the last header covers the name, ignored if there is no header or
the name is not registered. -/
theorem addData (h : Tracks to_string ops l) {item_name : List UInt8} {data : Data D}
    (hc : (Op.addData item_name data).Covered ops) :
    ∃ o, l.addItemDataToEntry item_name (data.text to_string) = some o ∧
      Tracks to_string (ops ++ [.addData item_name data]) o.logger ∧ o.row = none := by
  rw [addItemDataToEntry]
  by_cases hnil : columns ops = []
  · have hhead : l.head_added_ = false := by
      rw [← Bool.not_eq_true, h.head]
      exact not_not.mpr hnil
    rw [hhead]
    refine ⟨_, rfl, h.keep rfl rfl fun i => ?_, rfl⟩
    simp [Op.stores, hnil]
  · rw [h.head.mpr hnil, if_neg (by simp)]
    cases hid : l.entry_ids_[item_name]? with
    | none =>
      have hmem := h.unknown_iff.mp hid
      refine ⟨_, rfl, h.keep rfl rfl fun i => ?_, rfl⟩
      rw [Op.stores, if_neg]
      exact fun hi => hmem ((columns_isPrefix ops).subset (List.mem_of_getElem? hi))
    | some k =>
      have hmem : item_name ∈ registered ops := List.mem_of_getElem? ((h.ids item_name k).mp hid)
      obtain ⟨i, hi⟩ := List.mem_iff_getElem?.mp
        ((hc.resolve_left hnil).resolve_left (not_not.mpr hmem))
      have hk := ((h.column_iff hid).mp hi).2
      have hstores : ∀ i, (Op.addData item_name data).stores to_string i ops =
          if i = k then some (data.text to_string) else none := by
        intro i
        rw [Op.stores]
        exact if_congr ((h.column_iff hid).trans (and_iff_left hk)) rfl rfl
      obtain ⟨l', hl', htracks⟩ := h.store rfl rfl hk hstores
      exact ⟨{ logger := l' }, by simp only [hl', Option.map_some], htracks, rfl⟩

/-! ### The two rows -/

/-- The text of a header: every name is followed by a separator, and the last one is cut off. -/
theorem header_row (h : Tracks to_string ops l) (hne : registered ops ≠ []) :
    l.passEntryHeaderToLogger.row = some (separator.intercalate (registered ops)) := by
  have hnames : l.entry_names_.toList.map Prod.snd = registered ops := Rows.map_snd_toList h.names
  have hhead : l.entry_names_.toList.foldl (fun s item => s ++ (item.2 ++ separator)) [] =
      separator.intercalate (registered ops) ++ separator := by
    rw [← Rows.flatMap_append_eq separator hne, ← hnames, List.foldl_append_eq_append,
      List.nil_append, List.flatMap_map, List.flatMap_def]
  rw [passEntryHeaderToLogger, if_neg (mt h.counter_eq_zero_iff.mp hne)]
  simp only [hhead, Rows.rfind_append _ (show separator ≠ [] from List.cons_ne_nil _ _),
    List.take_left]

/-- Passing a header makes the row as long as it, and keeps what is stored. -/
theorem passHeader (h : Tracks to_string ops l) :
    Tracks to_string (ops ++ [.passHeader]) l.passEntryHeaderToLogger.logger ∧
      l.passEntryHeaderToLogger.row = Op.passHeader.row to_string ops ∧
      l.item_data_ <+: l.passEntryHeaderToLogger.logger.item_data_ := by
  by_cases hnil : registered ops = []
  · rw [passEntryHeaderToLogger, if_pos (h.counter_eq_zero_iff.mpr hnil), Op.row, if_pos hnil]
    refine ⟨h.keep rfl ?_ fun i => rfl, rfl, List.prefix_refl _⟩
    rw [Op.header, if_pos hnil]
  · rw [h.header_row hnil, Op.row, if_neg hnil]
    have hle : l.item_data_.length ≤ l.item_counter_ := by
      rw [h.length_data, h.counter]
      exact (columns_isPrefix ops).length_le
    have hregistered : registered (ops ++ [.passHeader]) = registered ops := registered_of_none rfl
    have hcolumns := columns_passHeader ops
    have hresize : resize l.item_data_ l.item_counter_ =
        (List.range (registered ops).length).map (value to_string (ops ++ [.passHeader])) := by
      obtain ⟨d, hd⟩ := Nat.exists_eq_add_of_le (columns_isPrefix ops).length_le
      have hold : value to_string (ops ++ [.passHeader]) = value to_string ops :=
        funext fun i => value_snoc to_string ops .passHeader i
      have hnew : (List.range d).map (value to_string ops ∘ ((columns ops).length + ·)) =
          List.replicate d [] := by
        refine List.eq_replicate_iff.mpr ⟨by simp, fun x hx => ?_⟩
        obtain ⟨j, -, rfl⟩ := List.mem_map.mp hx
        exact value_of_le (Nat.le_add_right ..)
      rw [resize, List.take_of_length_le hle, h.counter, h.length_data, hd,
        Nat.add_sub_cancel_left, List.range_add, List.map_append, List.map_map, h.data, hold, hnew]
    rw [passEntryHeaderToLogger, if_neg (mt h.counter_eq_zero_iff.mp hnil)]
    refine ⟨⟨hregistered ▸ h.counter, hregistered ▸ h.names, hregistered ▸ h.ids, ?_, ?_⟩, rfl, ?_⟩
    · simp [hcolumns, hnil]
    · rw [hcolumns]
      exact hresize
    · rw [resize, List.take_of_length_le hle]
      exact List.prefix_append _ _

end Tracks

/-- The loop over the fields joins what they show. -/
theorem rowLoop_eq (log_entry : List UInt8) (xs : List (List UInt8)) :
    rowLoop log_entry xs = log_entry ++ separator.intercalate (xs.map field) := by
  induction xs generalizing log_entry with
  | nil => simp [rowLoop]
  | cons x rest ih =>
    rw [rowLoop, ← field]
    cases rest with
    | nil => simp [ih]
    | cons y rest => simp [ih, List.intercalate_cons_cons]

theorem field_ne_nil (text : List UInt8) : field text ≠ [] := by
  rw [field]
  split
  · exact List.cons_ne_nil _ _
  · next h => simpa using h

namespace Tracks

/-- A data row joins the fields; it is passed on if there is a header. -/
theorem data_row (h : Tracks to_string ops l) :
    l.passEntryDataToLogger.row = Op.passData.row to_string ops := by
  have hfields : l.item_data_.map field = fields to_string ops := by
    rw [h.data, List.map_map]
    rfl
  rw [passEntryDataToLogger, rowLoop_eq, hfields, List.nil_append, Op.row]
  by_cases hnil : columns ops = []
  · rw [if_pos hnil, fields, hnil]
    rfl
  · have hrow : separator.intercalate (fields to_string ops) ≠ [] := by
      have hlen : (fields to_string ops).length = (columns ops).length := by simp [fields]
      cases hf : fields to_string ops with
      | nil =>
        rw [hf] at hlen
        exact absurd (List.eq_nil_of_length_eq_zero hlen.symm) hnil
      | cons x rest =>
        obtain ⟨i, -, hx⟩ := List.mem_map.mp (hf ▸ List.mem_cons_self : x ∈ fields to_string ops)
        have hne : x ≠ [] := hx ▸ field_ne_nil _
        cases rest with
        | nil => simpa using hne
        | cons y rest => simp [List.intercalate_cons_cons, hne]
    simp [hnil, hrow]

/-- **A call keeps the members in step**, and passes on the row it should. -/
theorem apply (h : Tracks to_string ops l) (hc : op.Covered ops) :
    ∃ o, l.apply to_string op = some o ∧ Tracks to_string (ops ++ [op]) o.logger ∧
      o.row = op.row to_string ops := by
  cases op with
  | addName name => exact ⟨_, rfl, h.addName name, rfl⟩
  | addData item_name data =>
    rw [apply_addData]
    exact h.addData hc
  | addDataById item_id data =>
    rw [apply_addDataById]
    exact h.addDataById item_id data
  | passHeader => exact ⟨_, rfl, h.passHeader.1, h.passHeader.2.1⟩
  | passData => exact ⟨_, rfl, h.keep rfl rfl fun i => rfl, h.data_row⟩

/-- Data given before there is a header, for a name that is not registered, or for an id that the
last header does not cover, leave everything as it is. -/
theorem ineffective (h : Tracks to_string ops l) (hop : op.Ineffective ops) :
    ∃ o, l.apply to_string op = some o ∧ o.logger = l ∧ o.row = none := by
  cases op with
  | addData item_name data =>
    rw [apply_addData, addItemDataToEntry]
    split
    · exact ⟨_, rfl, rfl, rfl⟩
    · next hhead =>
      have hnil : columns ops ≠ [] := h.head.mp (by simpa using hhead)
      rw [h.unknown_iff.mpr (hop.resolve_left hnil)]
      exact ⟨_, rfl, rfl, rfl⟩
  | addDataById item_id data =>
    have hle : item_id ≥ l.item_data_.length := by
      rw [h.length_data]
      exact hop
    rw [apply_addDataById, addItemDataToEntryById, if_pos hle]
    split <;> exact ⟨_, rfl, rfl, rfl⟩
  | _ => exact hop.elim

end Tracks

/-! ### Whole sequences of calls -/

/-- Whether a call is covered can be decided from those before it. -/
instance (before : List (Op D)) (op : Op D) : Decidable (op.Covered before) := by
  cases op <;> unfold Op.Covered <;> infer_instance

/-- Every call of the sequence is covered. -/
def AllCovered (ops : List (Op D)) : Prop := Past.Always (fun before op => op.Covered before) ops

/-- So it can of a sequence. -/
instance (ops : List (Op D)) : Decidable (AllCovered ops) :=
  inferInstanceAs (Decidable (Past.Always _ ops))

theorem allCovered_snoc : AllCovered (ops ++ [op]) ↔ AllCovered ops ∧ op.Covered ops :=
  Past.always_snoc _ ops op

theorem length_rows (to_string : D → List UInt8) (ops : List (Op D)) :
    (rows to_string ops).length = ops.length := by
  induction ops using List.reverseRecOn with
  | nil => rfl
  | append_singleton ops op ih =>
    rw [rows_snoc, List.length_append, List.length_append, ih]
    rfl

/-- The calls of a covered sequence all return, the members follow them, and the rows are those
that the calls describe. -/
theorem exec_eq (to_string : D → List UInt8) (hops : AllCovered ops) :
    ∃ l, (machine to_string).exec construct ops = some (ops.zip (rows to_string ops), l) ∧
      Tracks to_string ops l := by
  induction ops using List.reverseRecOn with
  | nil => exact ⟨construct, rfl, .init⟩
  | append_singleton ops op ih =>
    obtain ⟨hops, hop⟩ := allCovered_snoc.mp hops
    obtain ⟨l, hexec, htracks⟩ := ih hops
    obtain ⟨o, ho, htracks', hrow⟩ := htracks.apply hop
    refine ⟨o.logger, ?_, htracks'⟩
    rw [Machine.exec_snoc, hexec, Option.bind_some, rows_snoc,
      List.zip_append (length_rows to_string ops).symm]
    simp [machine, ho, hrow]

/-- **The rows are aligned with their header.** Let every call that gives data by name give it for
a name that the last header lists, if there is a header and the name is registered at all. Then
all calls return, and the rows are those that the calls describe: a header lists the distinct
names in the order of first registration; a data row has one field for each name of the last
header, showing the last text stored for it since a header first covered it, and there is none
before the first header. A call that gives data before there is a header, for an unknown name or
for an id beyond the header, changes nothing; a further header keeps what is stored. -/
theorem rows_aligned (to_string : D → List UInt8) (hops : AllCovered ops) :
    ∃ l, (machine to_string).exec construct ops = some (ops.zip (rows to_string ops), l) ∧
      (registered ops).Nodup ∧ (∀ name, name ∈ registered ops ↔ .addName name ∈ ops) ∧
      (∀ op : Op D, op.Ineffective ops →
        ∃ o, l.apply to_string op = some o ∧ o.logger = l ∧ o.row = none) ∧
      l.item_data_ <+: l.passEntryHeaderToLogger.logger.item_data_ := by
  obtain ⟨l, hexec, htracks⟩ := exec_eq to_string hops
  exact ⟨l, hexec, registered_nodup ops, fun name => mem_registered,
    fun op hop => htracks.ineffective hop, htracks.passHeader.2.2⟩

/-- One digit stands for its own text. -/
def digit (n : ℕ) : List UInt8 := [.ofNat (48 + n)]

/-- The names `a`, `b` and again `a`, a header, the text `x` for `a`, 7 for the second name, a data
row; then the name `c`, a header and a data row. -/
def smallTable : List (Op ℕ) :=
  [.addName [97], .addName [98], .addName [97], .passHeader, .addData [97] (.str [120]),
    .addDataById 1 (.double 7), .passData, .addName [99], .passHeader, .passData]

theorem rows_aligned_small :
    rows digit smallTable =
      [none, none, none, some [97, 32, 44, 32, 98], none, none, some [120, 32, 44, 32, 55], none,
        some [97, 32, 44, 32, 98, 32, 44, 32, 99], some [120, 32, 44, 32, 55, 32, 44, 32, 48]] ∧
    ∃ l, (machine digit).exec construct smallTable =
      some (smallTable.zip (rows digit smallTable), l) :=
  have ⟨l, hexec, _⟩ := rows_aligned digit (show AllCovered smallTable by decide +kernel)
  ⟨by decide +kernel, l, hexec⟩

end CtrlLogger

end XmSigma
