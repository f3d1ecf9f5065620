import Mathlib.Algebra.Order.Ring.Int
import Mathlib.Data.List.TakeWhile
import Mathlib.Tactic.FinCases
import PPView.Server.ParseUri

/-!
# Requests and replies

`MQQueryProcessor::ParseWorker` fills a worker from the items of a request, and `svc` writes the
reply in the same format. An unset number of a new worker has any value.
-/

namespace PPView.MQQueryProcessor

open Str AuxTools Strings

/-! ## Conversions -/

/-- `atoi`, which is `strtol` to the bounds of a `long`, as an `int`. -/
def atoi (s : Str) : Int := (max (-2 ^ 63) (min (2 ^ 63 - 1) (strtol (cStr s)).1)).bmod (2 ^ 32)

/-- `strtoul` as a `long long`. -/
def strtoul (s : Str) : Int :=
  let n := (strtol (cStr s)).1
  if n.natAbs ≤ 2 ^ 64 - 1 then n.bmod (2 ^ 64) else -1

/-- `%d` and `%ld`. -/
def printInt (n : Int) : Str :=
  if n < 0 then '-'.toUInt8 :: MyTime.decimal n.natAbs else MyTime.decimal n.natAbs

/-- `snprintf` of the text into `size` bytes, and the string in them. -/
def buffer (size : ℕ) (text : Str) : Str := cStr (text.take (size - 1))

/-! ## The worker -/

structure QueryParam where
  token : Str := []
  type : Str := []
  ver : Str := []
  lang : Str := []
  qid : Str := []
  uid : Str := []
  dev : Int := 0
  wid : Str := []
  reqHead : Str := []
  log : Str := []
  ccy : Str := []
  ptid : Str := []
  csuid : Str := []
  refer_id : Str := []
  cur_id : Str := []

namespace QueryParam

/-- The key and the value with the next key behind it. -/
def ReqHead (param : QueryParam) : QueryParam :=
  if param.reqHead ≠ [] then param
  else
    { param with
      reqHead := buffer 5000 (bytes "token=" ++ cStr param.token ++ bytes "&type=" ++
        cStr param.type ++ bytes "&dev=" ++ printInt param.dev ++ bytes "&ver=" ++
        cStr param.ver ++ bytes "&lang=" ++ cStr param.lang ++ bytes "&qid=" ++
        cStr param.qid ++ bytes "&uid=" ++ cStr param.uid ++ bytes "&ccy=" ++
        cStr param.ccy ++ bytes "&ptid=" ++ cStr param.ptid ++ bytes "&query=") }

def Log (param : QueryParam) : QueryParam :=
  { param with log := buffer 5000 (cStr param.qid ++ bytes "--" ++ cStr param.wid) }

end QueryParam

structure Worker where
  m_fd : Int
  m_htpTime : Int
  m_uri : Str := []
  m_msg : Str := []
  m_queryS : Str := []
  m_retS : Str := []
  m_qParam : QueryParam := {}
  m_wid : Str
  m_tid : Str := []
  m_cIdxS : Str := []
  /-- Less than 2 ^ 32. -/
  m_cNum : Int
  m_mqRetKey : Str := []

namespace Worker

/-- What an item sets. -/
def assign (worker : Worker) : Str × Str → Worker
  | (keyS, valueS) =>
    if keyS = bytes "query" then { worker with m_queryS := UrlDecode valueS }
    else if keyS = bytes "fd" then { worker with m_fd := atoi valueS }
    else if keyS = bytes "htpTime" then { worker with m_htpTime := strtoul valueS }
    else if keyS = bytes "cIdxS" then { worker with m_cIdxS := cStr valueS }
    else if keyS = bytes "cNum" then { worker with m_cNum := atoi valueS % 2 ^ 32 }
    else if keyS = bytes "tid" then { worker with m_tid := valueS }
    else if keyS = bytes "token" then { worker with m_qParam.token := valueS }
    else if keyS = bytes "type" then { worker with m_qParam.type := valueS }
    else if keyS = bytes "ver" then { worker with m_qParam.ver := valueS }
    else if keyS = bytes "lang" then { worker with m_qParam.lang := valueS }
    else if keyS = bytes "qid" then { worker with m_qParam.qid := valueS }
    else if keyS = bytes "uid" then { worker with m_qParam.uid := valueS }
    else if keyS = bytes "ccy" then { worker with m_qParam.ccy := valueS }
    else if keyS = bytes "dev" then { worker with m_qParam.dev := atoi valueS }
    else if keyS = bytes "ptid" then { worker with m_qParam.ptid := valueS }
    else if keyS = bytes "csuid" then { worker with m_qParam.csuid := valueS }
    else if keyS = bytes "refer_id" then { worker with m_qParam.refer_id := valueS }
    else if keyS = bytes "cur_id" then { worker with m_qParam.cur_id := valueS }
    else if keyS = bytes "mqRetKey" then { worker with m_mqRetKey := valueS }
    else worker

/-- The log texts at the end of `ParseWorker`. -/
def finish (worker : Worker) : Worker :=
  { worker with m_qParam := { worker.m_qParam with wid := worker.m_wid }.Log.ReqHead }

def ParseWorker (fuel : ℕ) (worker : Worker) : Option Worker :=
  (ParseUri fuel worker.m_uri).map fun itemList => (itemList.foldl assign worker).finish

/-- A new worker, with what the memory held in the numbers. -/
def new (fd htpTime cNum : Int) (wid uri : Str) : Worker :=
  { m_fd := fd, m_htpTime := htpTime, m_cNum := cNum, m_wid := wid, m_uri := uri }

def MAX_HTTP_CONTENT_LENGTH : ℕ := 1024 * 1024 * 10

/-- The reply, before it is cut to the size of the buffer. -/
def replyText (worker : Worker) : Str :=
  bytes "type=" ++ cStr worker.m_qParam.type ++ bytes "&uid=" ++ cStr worker.m_qParam.uid ++
    bytes "&qid=" ++ cStr worker.m_qParam.qid ++ bytes "&tid=" ++ cStr worker.m_tid ++
    bytes "&fd=" ++ printInt worker.m_fd ++ bytes "&htpTime=" ++ printInt worker.m_htpTime ++
    bytes "&cIdxS=" ++ cStr worker.m_cIdxS ++ bytes "&cNum=" ++
    printInt (worker.m_cNum.bmod (2 ^ 32)) ++ bytes "&ret=" ++ UrlEncode (cStr worker.m_retS)

/-- `svc` behind `DoRoute`. -/
def reply (worker : Worker) (retS : Str) : Worker :=
  let worker := { worker with m_retS := retS }
  { worker with m_msg := buffer MAX_HTTP_CONTENT_LENGTH worker.replyText }

/-- The worker with a value for some of the keys. -/
def ofItems (worker : Worker) (get : Str → Option Str) : Worker :=
  let str key field := (get (bytes key)).getD field
  { worker with
    m_queryS := ((get (bytes "query")).map UrlDecode).getD worker.m_queryS
    m_fd := ((get (bytes "fd")).map atoi).getD worker.m_fd
    m_htpTime := ((get (bytes "htpTime")).map strtoul).getD worker.m_htpTime
    m_cIdxS := ((get (bytes "cIdxS")).map cStr).getD worker.m_cIdxS
    m_cNum := ((get (bytes "cNum")).map fun s => atoi s % 2 ^ 32).getD worker.m_cNum
    m_tid := str "tid" worker.m_tid
    m_mqRetKey := str "mqRetKey" worker.m_mqRetKey
    m_qParam := { worker.m_qParam with
      token := str "token" worker.m_qParam.token
      type := str "type" worker.m_qParam.type
      ver := str "ver" worker.m_qParam.ver
      lang := str "lang" worker.m_qParam.lang
      qid := str "qid" worker.m_qParam.qid
      uid := str "uid" worker.m_qParam.uid
      ccy := str "ccy" worker.m_qParam.ccy
      dev := ((get (bytes "dev")).map atoi).getD worker.m_qParam.dev
      ptid := str "ptid" worker.m_qParam.ptid
      csuid := str "csuid" worker.m_qParam.csuid
      refer_id := str "refer_id" worker.m_qParam.refer_id
      cur_id := str "cur_id" worker.m_qParam.cur_id } }

end Worker

@[simp] theorem bytes_inj {s t : String} : bytes s = bytes t ↔ s = t := by
  rw [← String.toByteArray_inj, ByteArray.ext_iff, ← Array.toList_inj]
  rfl

namespace Worker

variable {get : Str → Option Str} {worker : Worker} {key value : Str}

/-- The keys that are read. -/
def keys : List String :=
  ["query", "fd", "htpTime", "cIdxS", "cNum", "tid", "token", "type", "ver", "lang", "qid", "uid",
    "ccy", "dev", "ptid", "csuid", "refer_id", "cur_id", "mqRetKey"]

theorem assign_ofItems :
    (worker.ofItems get).assign (key, value) =
      worker.ofItems (Function.update get key (some value)) := by
  by_cases hkey : key ∈ keys.map bytes
  · obtain ⟨name, hname, rfl⟩ := List.mem_map.mp hkey
    fin_cases hname
    all_goals simp [assign, ofItems, Function.update]
  · have hne : ∀ name ∈ keys, key ≠ bytes name := fun name hname heq =>
      hkey (heq ▸ List.mem_map_of_mem hname)
    have hget : ∀ name ∈ keys, Function.update get key (some value) (bytes name) =
        get (bytes name) := fun name hname => Function.update_of_ne (hne name hname).symm _ _
    simp only [keys, List.forall_mem_cons] at hne hget
    simp [assign, ofItems, hne, hget]

theorem foldl_assign (items : List (Str × Str)) (worker : Worker) :
    items.foldl assign worker = worker.ofItems fun key => items.reverse.lookup key := by
  induction items using List.reverseRecOn with
  | nil => rfl
  | append_singleton items item ih =>
    obtain ⟨key, value⟩ := item
    rw [List.foldl_append, ih, List.foldl_cons, List.foldl_nil, assign_ofItems]
    congr 1
    funext k
    rw [List.reverse_append, List.reverse_singleton, List.singleton_append, List.lookup_cons]
    rcases eq_or_ne k key with rfl | hne
    · simp
    · rw [Function.update_of_ne hne, beq_eq_false_iff_ne.mpr hne]

/-- Of two items with one key the first one counts. -/
theorem ParseWorker_eq {items : List Str} {fuel : ℕ} (huri : worker.m_uri.head? ≠ some amp)
    (h : IsItems worker.m_uri items) (hfuel : worker.m_uri.count amp ≤ fuel) :
    ParseWorker fuel worker =
      some (worker.ofItems fun key => (items.filterMap keyValue).lookup key).finish := by
  rw [ParseWorker, ParseUri_eq_of_isItems huri h hfuel, Option.map_some, foldl_assign,
    List.filterMap_reverse, List.reverse_reverse]

/-- A request made of keys with their values sets each field to the first value of its key. -/
theorem ParseWorker_format {kvs : List (Str × Str)} (fd htpTime cNum : Int) (wid : Str)
    (hkey : ∀ kv ∈ kvs, amp ∉ kv.1 ∧ eql ∉ kv.1) (hvalue : ∀ kv ∈ kvs, Clean kv.2) :
    ∀ fuel, (format kvs).count amp ≤ fuel →
      ParseWorker fuel (new fd htpTime cNum wid (format kvs)) =
        some ((new fd htpTime cNum wid (format kvs)).ofItems fun key => kvs.lookup key).finish := by
  intro fuel hfuel
  have hamp := fun kv hkv => (hkey kv hkv).1
  have h := isItems_format hamp hvalue
  rw [ParseWorker_eq (head?_format hamp) h hfuel,
    filterMap_keyValue_format fun kv hkv => (hkey kv hkv).2]

/-- Two users in one request. -/
theorem ParseWorker_format_uid :
    ((ParseWorker 2 (new 0 0 0 [] (format [(bytes "uid", bytes "a&b"),
      (bytes "uid", bytes "c")]))).map fun worker => worker.m_qParam.uid) =
        some (bytes "a&b") := by
  have hvalue : ∀ a b, bytes "a&b" = a ++ amp :: b → eql ∉ b := fun a b hab hb => by
    have hmem : eql ∈ bytes "a&b" := by simp [hab, hb]
    exact absurd hmem (by decide)
  rw [ParseWorker_format 0 0 0 [] (by decide) ?_ 2 (by decide)]
  · decide
  · simp only [List.forall_mem_cons]
    exact ⟨hvalue, clean_of_notMem (by decide), by simp⟩

end Worker

/-! ## The reply -/

variable {s : Str} {c : UInt8}

theorem zero_notMem_cStr (s : Str) : 0 ∉ cStr s := fun h => by
  simpa using List.mem_takeWhile_imp h

theorem cStr_eq_self (h : 0 ∉ s) : cStr s = s := by
  refine List.takeWhile_eq_self_iff.mpr fun c hc => decide_eq_true ?_
  rintro rfl
  exact h hc

theorem cStr_cStr (s : Str) : cStr (cStr s) = cStr s := cStr_eq_self (zero_notMem_cStr s)

theorem Clean.cStr (h : Clean s) : Clean s.cStr := by
  refine Clean.of_append (b := s.dropWhile (· ≠ 0)) ?_
  rwa [Str.cStr, List.takeWhile_append_dropWhile]

theorem mem_decimal {n : ℕ} (h : c ∈ MyTime.decimal n) : isDigit c := by
  obtain ⟨d, hd, rfl⟩ := List.mem_map.mp h
  have hdigit := Nat.isDigit_of_mem_toDigits (by omega) (by omega) hd
  simp only [Char.isDigit, Bool.and_eq_true, decide_eq_true_eq, ge_iff_le, UInt32.le_iff_toNat_le]
    at hdigit
  simp only [isDigit, Bool.and_eq_true, decide_eq_true_eq, UInt8.le_iff_toNat_le]
  have hnat : (UInt8.ofNat d.toNat).toNat = d.toNat % 256 := UInt8.toNat_ofNat'
  rw [hnat]
  change 48 ≤ d.toNat ∧ d.toNat ≤ 57 at hdigit
  change 48 ≤ _ ∧ _ ≤ 57
  omega

theorem mem_printInt {n : Int} (h : c ∈ printInt n) : isDigit c ∨ c = '-'.toUInt8 := by
  unfold printInt at h
  split_ifs at h
  · rcases List.mem_cons.mp h with h | h
    · exact .inr h
    · exact .inl (mem_decimal h)
  · exact .inl (mem_decimal h)

theorem buffer_eq {size : ℕ} (hzero : 0 ∉ s) (hlen : s.length < size) : buffer size s = s := by
  rw [buffer, List.take_of_length_le (by omega), cStr_eq_self hzero]

namespace Worker

/-- The keys and values of a reply. -/
def replyItems (worker : Worker) : List (Str × Str) :=
  [(bytes "type", cStr worker.m_qParam.type), (bytes "uid", cStr worker.m_qParam.uid),
    (bytes "qid", cStr worker.m_qParam.qid), (bytes "tid", cStr worker.m_tid),
    (bytes "fd", printInt worker.m_fd), (bytes "htpTime", printInt worker.m_htpTime),
    (bytes "cIdxS", cStr worker.m_cIdxS), (bytes "cNum", printInt (worker.m_cNum.bmod (2 ^ 32))),
    (bytes "ret", UrlEncode (cStr worker.m_retS))]

def replyNames : List String :=
  ["type", "uid", "qid", "tid", "fd", "htpTime", "cIdxS", "cNum", "ret"]

theorem replyText_eq (worker : Worker) : worker.replyText = format worker.replyItems := by
  have htype : bytes "type=" = bytes "type" ++ [eql] := by decide
  have hkey : ∀ key ∈ [("&uid=", "uid"), ("&qid=", "qid"), ("&tid=", "tid"), ("&fd=", "fd"),
      ("&htpTime=", "htpTime"), ("&cIdxS=", "cIdxS"), ("&cNum=", "cNum"), ("&ret=", "ret")],
      bytes key.1 = amp :: (bytes key.2 ++ [eql]) := by decide
  simp only [List.forall_mem_cons] at hkey
  simp [replyText, format, replyItems, htype, hkey]

/-- No item of a reply runs into the next one. -/
theorem replyItems_clean {worker : Worker} (htype : Clean worker.m_qParam.type)
    (huid : Clean worker.m_qParam.uid) (hqid : Clean worker.m_qParam.qid)
    (htid : Clean worker.m_tid) (hcIdxS : Clean worker.m_cIdxS) :
    ∀ kv ∈ worker.replyItems, Clean kv.2 := by
  have hint (n : Int) : Clean (printInt n) :=
    clean_of_notMem fun h => (mem_printInt h).elim (by decide) (by decide)
  have hret (s : Str) : Clean (UrlEncode s) :=
    clean_of_notMem (notMem_UrlEncode (by decide) (by decide) (by decide))
  simp only [replyItems, List.forall_mem_cons]
  exact ⟨htype.cStr, huid.cStr, hqid.cStr, htid.cStr, hint _, hint _, hcIdxS.cStr, hint _, hret _,
    by simp⟩

theorem zero_notMem_replyText (worker : Worker) : 0 ∉ worker.replyText := by
  have hint (n : Int) : 0 ∉ printInt n := fun h => (mem_printInt h).elim (by decide) (by decide)
  have hret (s : Str) : 0 ∉ UrlEncode s := notMem_UrlEncode (by decide) (by decide) (by decide)
  have hkey : ∀ key ∈ ["type=", "&uid=", "&qid=", "&tid=", "&fd=", "&htpTime=", "&cIdxS=",
      "&cNum=", "&ret="], 0 ∉ bytes key := by decide
  simp only [List.forall_mem_cons] at hkey
  simp [replyText, zero_notMem_cStr, hint, hret, hkey]

theorem ofItems_clean {uri : Str} {items : List Str} (h : IsItems uri items) (name : String) :
    Clean (((items.filterMap keyValue).lookup (bytes name)).getD []) := by
  cases hlookup : (items.filterMap keyValue).lookup (bytes name) with
  | none => exact clean_of_notMem (by simp)
  | some value =>
    obtain ⟨kvs, kvs', hkvs, -⟩ := List.lookup_eq_some_iff.mp hlookup
    have hkv : (bytes name, value) ∈ items.filterMap keyValue := by simp [hkvs]
    exact h.clean hkv

@[simp] theorem finish_type (worker : Worker) :
    worker.finish.m_qParam.type = worker.m_qParam.type := by
  unfold finish QueryParam.ReqHead
  split_ifs <;> rfl

@[simp] theorem finish_uid (worker : Worker) :
    worker.finish.m_qParam.uid = worker.m_qParam.uid := by
  unfold finish QueryParam.ReqHead
  split_ifs <;> rfl

@[simp] theorem finish_qid (worker : Worker) :
    worker.finish.m_qParam.qid = worker.m_qParam.qid := by
  unfold finish QueryParam.ReqHead
  split_ifs <;> rfl

section Reply

variable (worker : Worker) (retS : Str)

@[simp] theorem reply_m_qParam : (worker.reply retS).m_qParam = worker.m_qParam := by
  simp only [reply]

@[simp] theorem reply_m_tid : (worker.reply retS).m_tid = worker.m_tid := by
  simp only [reply]

@[simp] theorem reply_m_cIdxS : (worker.reply retS).m_cIdxS = worker.m_cIdxS := by
  simp only [reply]

theorem reply_m_msg :
    (worker.reply retS).m_msg = buffer MAX_HTTP_CONTENT_LENGTH (worker.reply retS).replyText := by
  simp only [reply, replyText]

end Reply

/-- A reply that fits into the buffer is read back. -/
theorem ParseUri_m_msg {worker : Worker} {fuel : ℕ}
    (hmsg : worker.m_msg = buffer MAX_HTTP_CONTENT_LENGTH worker.replyText)
    (hlen : worker.replyText.length < MAX_HTTP_CONTENT_LENGTH)
    (hvalue : ∀ kv ∈ worker.replyItems, Clean kv.2) (hfuel : worker.m_msg.count amp ≤ fuel) :
    ParseUri fuel worker.m_msg = some worker.replyItems.reverse := by
  have hkey : ∀ name ∈ replyNames, amp ∉ bytes name ∧ eql ∉ bytes name := by decide
  rw [buffer_eq (zero_notMem_replyText _) hlen, replyText_eq] at hmsg
  rw [hmsg] at hfuel ⊢
  refine ParseUri_format (fun kv hkv => ?_) hvalue hfuel
  have hmem : kv.1 ∈ replyNames.map bytes := List.mem_map_of_mem (f := Prod.fst) hkv
  obtain ⟨name, hname, heq⟩ := List.mem_map.mp hmem
  exact heq ▸ hkey name hname

/-- A reply has nine items, and in them what identifies the request. -/
theorem reply_isItems {uri : Str} {items : List Str} {fuel : ℕ} (fd htpTime cNum : Int)
    (wid retS : Str) (huri : uri.head? ≠ some amp) (h : IsItems uri items)
    (hfuel : uri.count amp ≤ fuel) :
    ∃ worker, ParseWorker fuel (new fd htpTime cNum wid uri) = some worker ∧
      ((worker.reply retS).replyText.length < MAX_HTTP_CONTENT_LENGTH →
        ∃ ret, UrlDecode ret = cStr retS ∧
          ∀ fuel, (worker.reply retS).m_msg.count amp ≤ fuel →
            ParseUri fuel (worker.reply retS).m_msg =
              let get name := cStr (((items.filterMap keyValue).lookup (bytes name)).getD [])
              some [(bytes "ret", ret), (bytes "cNum", printInt (worker.m_cNum.bmod (2 ^ 32))),
                (bytes "cIdxS", get "cIdxS"), (bytes "htpTime", printInt worker.m_htpTime),
                (bytes "fd", printInt worker.m_fd), (bytes "tid", get "tid"),
                (bytes "qid", get "qid"), (bytes "uid", get "uid"),
                (bytes "type", get "type")]) := by
  have hcIdxS : ((((items.filterMap keyValue).lookup (bytes "cIdxS")).map cStr).getD []) =
      cStr (((items.filterMap keyValue).lookup (bytes "cIdxS")).getD []) := by
    cases (items.filterMap keyValue).lookup (bytes "cIdxS") <;> rfl
  have hclean := ofItems_clean h
  obtain ⟨worker, hworker, htype, huid, hqid, htid, hcIdxS⟩ : ∃ worker,
      ParseWorker fuel (new fd htpTime cNum wid uri) = some worker ∧
      worker.m_qParam.type = ((items.filterMap keyValue).lookup (bytes "type")).getD [] ∧
      worker.m_qParam.uid = ((items.filterMap keyValue).lookup (bytes "uid")).getD [] ∧
      worker.m_qParam.qid = ((items.filterMap keyValue).lookup (bytes "qid")).getD [] ∧
      worker.m_tid = ((items.filterMap keyValue).lookup (bytes "tid")).getD [] ∧
      worker.m_cIdxS = cStr (((items.filterMap keyValue).lookup (bytes "cIdxS")).getD []) :=
    ⟨_, ParseWorker_eq huri h hfuel, finish_type _, finish_uid _, finish_qid _, rfl, hcIdxS⟩
  refine ⟨worker, hworker, fun hlen => ⟨_, UrlDecode_UrlEncode _, fun fuel hfuel => ?_⟩⟩
  have hvalue : ∀ kv ∈ (worker.reply retS).replyItems, Clean kv.2 := by
    refine replyItems_clean ?_ ?_ ?_ ?_ ?_
    · rw [reply_m_qParam, htype]
      exact hclean _
    · rw [reply_m_qParam, huid]
      exact hclean _
    · rw [reply_m_qParam, hqid]
      exact hclean _
    · rw [reply_m_tid, htid]
      exact hclean _
    · rw [reply_m_cIdxS, hcIdxS]
      exact (hclean _).cStr
  rw [ParseUri_m_msg (reply_m_msg _ _) hlen hvalue hfuel]
  simp only [replyItems, reply, htype, huid, hqid, htid, hcIdxS, cStr_cStr]
  rfl

/-- A request with a `&` in the user. -/
theorem reply_isItems_uid : ∃ worker ret,
    ParseWorker 2 (new 0 0 0 [] (format [(bytes "fd", bytes "-7"), (bytes "uid", bytes "a&b")])) =
      some worker ∧
    UrlDecode ret = bytes "&" ∧
    ParseUri 9 (worker.reply (bytes "&")).m_msg =
      some [(bytes "ret", ret), (bytes "cNum", bytes "0"), (bytes "cIdxS", []),
        (bytes "htpTime", bytes "0"), (bytes "fd", bytes "-7"), (bytes "tid", []),
        (bytes "qid", []), (bytes "uid", bytes "a&b"), (bytes "type", [])] := by
  have hvalue : ∀ a b, bytes "a&b" = a ++ amp :: b → eql ∉ b := fun a b hab hb => by
    have hmem : eql ∈ bytes "a&b" := by simp [hab, hb]
    exact absurd hmem (by decide)
  have hitems : IsItems (format [(bytes "fd", bytes "-7"), (bytes "uid", bytes "a&b")])
      [bytes "fd=-7", bytes "uid=a&b"] := by
    refine isItems_format (by decide) ?_
    simp only [List.forall_mem_cons]
    exact ⟨clean_of_notMem (by decide), hvalue, by simp⟩
  obtain ⟨worker, hworker, hreply⟩ :=
    reply_isItems 0 0 0 [] (bytes "&") (by decide) hitems (show _ ≤ 2 by decide)
  have hrun : (ParseWorker 2
      (new 0 0 0 [] (format [(bytes "fd", bytes "-7"), (bytes "uid", bytes "a&b")]))).map
      (fun worker => (worker.m_fd, worker.m_htpTime, worker.m_cNum,
        (worker.reply (bytes "&")).replyText.length, (worker.reply (bytes "&")).m_msg.count amp)) =
      some (-7, 0, 0, 61, 9) := by
    decide
  rw [hworker, Option.map_some, Option.some.injEq, Prod.mk.injEq, Prod.mk.injEq, Prod.mk.injEq,
    Prod.mk.injEq] at hrun
  obtain ⟨hfd, hhtpTime, hcNum, hlen, hcount⟩ := hrun
  obtain ⟨ret, hret, hreply⟩ := hreply (by rw [hlen]; decide)
  refine ⟨worker, ret, hworker, hret, ?_⟩
  rw [hreply 9 hcount.le, hfd, hhtpTime, hcNum]
  exact congrArg (fun items => some ((bytes "ret", ret) :: items)) (by decide)

end Worker

end PPView.MQQueryProcessor
