import MonoTS.Common

/-!
# The text of SHOW STREAM

A stream is shown as the statement that would create it: every option of its definition as a pair
`'key' = 'value'`. Each kind of sink selects the options to print itself. The printers of Kafka,
Pulsar and MQTT print `***` where a password is set; the printer of the object store options, which
Delta, the file system and Iceberg share, prints the secret key as it is.

`redact` blanks the secrets of a definition, so two definitions are equal but for their secrets when
their redactions are the same. Their texts are then the same if and only if the secrets that are
printed are: `formatStreamDdl_eq_iff`.

The moment a stream was created is not printed and left out of the definition.
-/

open List

namespace MonoTS

/-! ## Stream definitions -/

/-- What a stream captures. -/
inductive StreamCaptureMode where
  | batch
  | log
  | hybrid
  deriving DecidableEq, Repr

def StreamCaptureMode.asCdcModeStr : StreamCaptureMode → String
  | batch => "batch"
  | log => "log"
  | hybrid => "hybrid"

/-- The options of an object store client. -/
structure DeltaSinkOptions where
  accessKey : Option String
  secretKey : Option String
  region : String
  pathStyleAccess : Option Bool
  connectionMaximum : ℕ
  connectionTimeoutMs : ℕ
  attemptsMaximum : ℕ
  deriving DecidableEq, Repr

/-- What Kafka promises. -/
inductive KafkaDeliveryGuarantee where
  | atLeastOnce
  | exactlyOnce
  deriving DecidableEq, Repr

def KafkaDeliveryGuarantee.asStr : KafkaDeliveryGuarantee → String
  | atLeastOnce => "at-least-once"
  | exactlyOnce => "exactly-once"

/-- How partitions are chosen. -/
inductive KafkaPartitioner where
  | default
  | roundRobin
  | fixed
  deriving DecidableEq, Repr

def KafkaPartitioner.asStr : KafkaPartitioner → String
  | default => "default"
  | roundRobin => "round-robin"
  | fixed => "fixed"

/-- The options of a Kafka sink. -/
structure KafkaSinkOptions where
  keyFormat : Option String
  keyFields : List String
  keyFieldsPrefix : String
  partitioner : KafkaPartitioner
  deliveryGuarantee : KafkaDeliveryGuarantee
  transactionalId : Option String
  transactionTimeoutMs : Option ℕ
  compressionType : Option String
  batchSize : Option ℕ
  lingerMs : Option ℕ
  acks : Option String
  retries : Option ℕ
  securityProtocol : Option String
  saslMechanism : Option String
  saslUsername : Option String
  saslPassword : Option String
  sslCaLocation : Option String
  sslTruststorePassword : Option String
  sslCertificateLocation : Option String
  sslKeyLocation : Option String
  sslKeyPassword : Option String
  sslKeystoreLocation : Option String
  sslKeystorePassword : Option String
  deriving DecidableEq, Repr

/-- The kind of catalog. -/
inductive IcebergCatalogType where
  | hive
  | hadoop
  | rest
  | glue
  deriving DecidableEq, Repr

def IcebergCatalogType.asStr : IcebergCatalogType → String
  | hive => "hive"
  | hadoop => "hadoop"
  | rest => "rest"
  | glue => "glue"

/-- The options of an Iceberg sink. -/
structure IcebergSinkOptions where
  catalogType : IcebergCatalogType
  catalogName : String
  uri : Option String
  warehouse : Option String
  «namespace» : String
  table : String
  createTableIfNotExists : Bool
  endpoint : Option String
  objectStore : DeltaSinkOptions
  deriving DecidableEq, Repr

/-- What Pulsar promises. -/
inductive PulsarDeliveryGuarantee where
  | none
  | atLeastOnce
  deriving DecidableEq, Repr

def PulsarDeliveryGuarantee.asStr : PulsarDeliveryGuarantee → String
  | none => "none"
  | atLeastOnce => "at-least-once"

/-- The options of a Pulsar sink. -/
structure PulsarSinkOptions where
  topic : String
  serviceUrl : String
  adminUrl : String
  deliveryGuarantee : PulsarDeliveryGuarantee
  keyFormat : Option String
  keyFields : List String
  keyFieldsPrefix : String
  authPlugin : Option String
  authParams : Option String
  deriving DecidableEq, Repr

/-- The quality of service. -/
inductive MqttQos where
  | atMostOnce
  | atLeastOnce
  | exactlyOnce
  deriving DecidableEq, Repr

def MqttQos.asStr : MqttQos → String
  | atMostOnce => "0"
  | atLeastOnce => "1"
  | exactlyOnce => "2"

/-- The options of an MQTT client; times are in seconds. -/
structure MqttSinkOptions where
  url : String
  topic : String
  clientId : Option String
  username : Option String
  password : Option String
  cleanSession : Bool
  qos : MqttQos
  retained : Bool
  connectionTimeout : ℕ
  keepAliveInterval : ℕ
  maxInflight : ℕ
  deriving DecidableEq, Repr

/-- Where a stream goes. -/
inductive SinkConfig where
  | kafka (brokers topic format : String) (options : KafkaSinkOptions)
  | delta (path : String) (endpoint : Option String) (options : DeltaSinkOptions)
  | filesystem (path : String) (endpoint : Option String) (options : DeltaSinkOptions)
  | iceberg (options : IcebergSinkOptions)
  | pulsar (format : String) (options : PulsarSinkOptions)
  | mqtt (format : String) (options : MqttSinkOptions)
  deriving DecidableEq, Repr

/-- The name of the connector. -/
def SinkConfig.connectorType : SinkConfig → String
  | kafka .. => "kafka"
  | delta .. => "delta"
  | filesystem .. => "filesystem"
  | iceberg .. => "iceberg"
  | pulsar .. => "pulsar"
  | mqtt .. => "mqtt"

def SinkConfig.deliveryFormat : SinkConfig → String
  | kafka _ _ format _ | pulsar format _ | mqtt format _ => format
  | delta .. | filesystem .. | iceberg .. => "parquet"

/-- The definition of a stream. -/
structure StreamDef where
  name : String
  sourceTables : List String
  captureMode : StreamCaptureMode
  sinkConfig : SinkConfig
  autoEnd : Bool
  deriving DecidableEq, Repr

/-! ## The printers -/

/-- A pair for an option that is set. -/
def pairIfSet (key : String) (value : Option String) : List (String × String) :=
  value.toList.map (key, ·)

variable (secret : Option String)

/-- What is printed for a secret that is set. -/
def masked : Option String := secret.map fun _ ↦ "***"

def boolStr (v : Bool) : String := if v then "true" else "false"

def formatDurationMs (ms : ℕ) : String :=
  if ms = 0 then "0ms"
  else if ms % 3600000 = 0 then toString (ms / 3600000) ++ "h"
  else if ms % 60000 = 0 then toString (ms / 60000) ++ " min"
  else if ms % 1000 = 0 then toString (ms / 1000) ++ "s"
  else toString ms ++ "ms"

def deltaOptionPrefix : String := "sink.delta"

def filesystemOptionPrefix : String := "sink.filesystem"

def icebergOptionPrefix : String := "sink.iceberg"

variable (o : DeltaSinkOptions)

def DeltaSinkOptions.ddlPairsPrefixed (keys : String)
    (endpoint : Option String) : List (String × String) :=
  pairIfSet (keys ++ ".access.key") o.accessKey ++
    (pairIfSet (keys ++ ".secret.key") o.secretKey ++ [(keys ++ ".region", o.region),
        (keys ++ ".path.style.access",
          boolStr (o.pathStyleAccess.getD (endpoint.any fun e ↦ !e.isEmpty))),
        (keys ++ ".connection.maximum", toString o.connectionMaximum),
        (keys ++ ".connection.timeout", formatDurationMs o.connectionTimeoutMs),
        (keys ++ ".attempts.maximum", toString o.attemptsMaximum)])

def DeltaSinkOptions.ddlPairs (endpoint : Option String) : List (String × String) :=
  o.ddlPairsPrefixed deltaOptionPrefix endpoint

/-- The secrets are printed as `***` or, for those of SSL, not at all. -/
def KafkaSinkOptions.ddlPairs (o : KafkaSinkOptions) : List (String × String) :=
  pairIfSet "sink.kafka.key.format" o.keyFormat ++
  (if o.keyFields.isEmpty then [] else [("sink.kafka.key.fields", ",".intercalate o.keyFields)]) ++
  (if o.keyFieldsPrefix.isEmpty then []
    else [("sink.kafka.key.fields-prefix", o.keyFieldsPrefix)]) ++
  [("sink.kafka.partitioner", o.partitioner.asStr),
    ("sink.kafka.delivery-guarantee", o.deliveryGuarantee.asStr)] ++
  pairIfSet "sink.kafka.transactional.id" o.transactionalId ++
  pairIfSet "sink.kafka.transaction.timeout.ms" (o.transactionTimeoutMs.map toString) ++
  pairIfSet "sink.kafka.compression.type" o.compressionType ++
  pairIfSet "sink.kafka.batch.size" (o.batchSize.map toString) ++
  pairIfSet "sink.kafka.linger.ms" (o.lingerMs.map toString) ++
  pairIfSet "sink.kafka.acks" o.acks ++
  pairIfSet "sink.kafka.retries" (o.retries.map toString) ++
  pairIfSet "sink.kafka.security.protocol" o.securityProtocol ++
  pairIfSet "sink.kafka.sasl.mechanism" o.saslMechanism ++
  pairIfSet "sink.kafka.sasl.username" o.saslUsername ++
  pairIfSet "sink.kafka.sasl.password" (masked o.saslPassword) ++
  pairIfSet "sink.kafka.ssl.ca.location" o.sslCaLocation ++
  pairIfSet "sink.kafka.ssl.certificate.location" o.sslCertificateLocation ++
  pairIfSet "sink.kafka.ssl.key.location" o.sslKeyLocation ++
  pairIfSet "sink.kafka.ssl.keystore.location" o.sslKeystoreLocation

def IcebergSinkOptions.ddlPairs (o : IcebergSinkOptions) : List (String × String) :=
  [(icebergOptionPrefix ++ ".catalog-type", o.catalogType.asStr),
    (icebergOptionPrefix ++ ".catalog-name", o.catalogName)] ++
  pairIfSet (icebergOptionPrefix ++ ".uri") o.uri ++
  pairIfSet (icebergOptionPrefix ++ ".warehouse") o.warehouse ++
  [(icebergOptionPrefix ++ ".namespace", o.namespace), (icebergOptionPrefix ++ ".table", o.table),
    (icebergOptionPrefix ++ ".create-table-if-not-exists", boolStr o.createTableIfNotExists)] ++
  pairIfSet (icebergOptionPrefix ++ ".endpoint") o.endpoint ++
  o.objectStore.ddlPairsPrefixed icebergOptionPrefix o.endpoint

variable (o : PulsarSinkOptions)

def PulsarSinkOptions.ddlPairs : List (String × String) :=
  [("sink.pulsar.topic", o.topic), ("sink.pulsar.service-url", o.serviceUrl),
    ("sink.pulsar.admin-url", o.adminUrl),
    ("sink.pulsar.delivery-guarantee", o.deliveryGuarantee.asStr)] ++
  pairIfSet "sink.pulsar.key.format" o.keyFormat ++
  (if o.keyFields.isEmpty then [] else [("sink.pulsar.key.fields", ",".intercalate o.keyFields)]) ++
  (if o.keyFieldsPrefix.isEmpty then []
    else [("sink.pulsar.key.fields-prefix", o.keyFieldsPrefix)]) ++
  pairIfSet "sink.pulsar.auth-plugin" o.authPlugin ++
  pairIfSet "sink.pulsar.auth-params" (masked o.authParams)

def MqttSinkOptions.ddlPairs (o : MqttSinkOptions) : List (String × String) :=
  [("sink.mqtt.url", o.url), ("sink.mqtt.topic", o.topic), ("sink.mqtt.qos", o.qos.asStr),
    ("sink.mqtt.clean-session", boolStr o.cleanSession),
    ("sink.mqtt.retained", boolStr o.retained),
    ("sink.mqtt.connection-timeout", toString o.connectionTimeout),
    ("sink.mqtt.keep-alive-interval", toString o.keepAliveInterval),
    ("sink.mqtt.max-inflight", toString o.maxInflight)] ++
  pairIfSet "sink.mqtt.client-id" o.clientId ++
  pairIfSet "sink.mqtt.username" o.username ++
  pairIfSet "sink.mqtt.password" (masked o.password)

/-- The pairs of the sink, in the order in which they are printed. -/
def SinkConfig.ddlPairs : SinkConfig → List (String × String)
  | kafka brokers topic _ options =>
    ("sink.kafka.brokers", brokers) :: ("sink.kafka.topic", topic) :: options.ddlPairs
  | delta path endpoint options =>
    ("sink.delta.path", path) ::
      (pairIfSet "sink.delta.endpoint" (endpoint.filter fun s ↦ !s.isEmpty) ++
        options.ddlPairs endpoint)
  | filesystem path endpoint options =>
    ("sink.filesystem.path", path) ::
      (pairIfSet "sink.filesystem.endpoint" (endpoint.filter fun s ↦ !s.isEmpty) ++
        options.ddlPairsPrefixed filesystemOptionPrefix endpoint)
  | iceberg options => options.ddlPairs
  | pulsar _ options => options.ddlPairs
  | mqtt _ options => options.ddlPairs

/-- `'key' = 'value'` -/
def formatPair (pair : String × String) : String := "'" ++ pair.1 ++ "' = '" ++ pair.2 ++ "'"

/-- Every pair of the statement. -/
def StreamDef.ddlPairs (d : StreamDef) : List (String × String) :=
  [("sink.type", d.sinkConfig.connectorType), ("source.table", ",".intercalate d.sourceTables),
    ("cdc.mode", d.captureMode.asCdcModeStr), ("sink.format", d.sinkConfig.deliveryFormat)] ++
  d.sinkConfig.ddlPairs ++
  if d.autoEnd then [("cdc.auto_end", boolStr d.autoEnd)] else []

def formatStreamDdl (d : StreamDef) : String :=
  "CREATE STREAM " ++ d.name ++ " WITH (\n  " ++ ",\n  ".intercalate (d.ddlPairs.map formatPair) ++
    "\n)"

/-! ## Secrets -/

/-- Blank a secret, but not whether it is set. -/
def blank : Option String := secret.map fun _ ↦ ""

theorem isSome_blank : (blank secret).isSome = secret.isSome :=
  Option.isSome_map

theorem masked_blank : masked (blank secret) = masked secret :=
  Option.map_map _ _ _

def DeltaSinkOptions.redact (o : DeltaSinkOptions) : DeltaSinkOptions :=
  { o with secretKey := blank o.secretKey }

def KafkaSinkOptions.redact (o : KafkaSinkOptions) : KafkaSinkOptions :=
  { o with
    saslPassword := blank o.saslPassword
    sslTruststorePassword := blank o.sslTruststorePassword
    sslKeyPassword := blank o.sslKeyPassword
    sslKeystorePassword := blank o.sslKeystorePassword }

def PulsarSinkOptions.redact : PulsarSinkOptions :=
  { o with authParams := blank o.authParams }

def MqttSinkOptions.redact (o : MqttSinkOptions) : MqttSinkOptions :=
  { o with password := blank o.password }

def SinkConfig.redact : SinkConfig → SinkConfig
  | kafka brokers topic format options => kafka brokers topic format options.redact
  | delta path endpoint options => delta path endpoint options.redact
  | filesystem path endpoint options => filesystem path endpoint options.redact
  | iceberg options => iceberg { options with objectStore := options.objectStore.redact }
  | pulsar format options => pulsar format options.redact
  | mqtt format options => mqtt format options.redact

/-- The definition without its secrets. -/
def StreamDef.redact (d : StreamDef) : StreamDef := { d with sinkConfig := d.sinkConfig.redact }

/-- The secret key of the object store that the sink writes to. -/
def SinkConfig.secretKey : SinkConfig → Option String
  | delta _ _ options | filesystem _ _ options => options.secretKey
  | iceberg options => options.objectStore.secretKey
  | kafka .. | pulsar .. | mqtt .. => none

/-- Put in another secret key. -/
def SinkConfig.withSecretKey (k : Option String) : SinkConfig → SinkConfig
  | delta path endpoint options => delta path endpoint { options with secretKey := k }
  | filesystem path endpoint options => filesystem path endpoint { options with secretKey := k }
  | iceberg options => iceberg { options with objectStore.secretKey := k }
  | sink => sink

theorem KafkaSinkOptions.ddlPairs_redact (o : KafkaSinkOptions) :
    o.redact.ddlPairs = o.ddlPairs := by
  unfold ddlPairs redact
  rw [masked_blank]

theorem PulsarSinkOptions.ddlPairs_redact : o.redact.ddlPairs = o.ddlPairs := by
  unfold ddlPairs redact
  rw [masked_blank]

theorem MqttSinkOptions.ddlPairs_redact (o : MqttSinkOptions) : o.redact.ddlPairs = o.ddlPairs := by
  unfold ddlPairs redact
  rw [masked_blank]

/-- The pairs as a function of a secret show it in one place. -/
def PrintsSecret (pairs : String → List (String × String)) : Prop :=
  ∃ key before behind, ∀ k, pairs k = before ++ (key, k) :: behind

namespace PrintsSecret

variable {pairs : String → List (String × String)}

theorem pairIfSet (key : String) (behind : List (String × String)) :
    PrintsSecret fun k ↦ MonoTS.pairIfSet key (some k) ++ behind :=
  ⟨key, [], behind, fun _ ↦ rfl⟩

theorem append_left (h : PrintsSecret pairs) (xs : List (String × String)) :
    PrintsSecret fun k ↦ xs ++ pairs k := by
  obtain ⟨key, before, behind, h⟩ := h
  refine ⟨key, xs ++ before, behind, fun k ↦ ?_⟩
  simp only [h, append_assoc]

theorem append_right (h : PrintsSecret pairs) (xs : List (String × String)) :
    PrintsSecret fun k ↦ pairs k ++ xs := by
  obtain ⟨key, before, behind, h⟩ := h
  refine ⟨key, before, behind ++ xs, fun k ↦ ?_⟩
  simp only [h, append_assoc, cons_append]

end PrintsSecret

theorem DeltaSinkOptions.printsSecret (o : DeltaSinkOptions) (keys : String)
    (endpoint : Option String) :
    PrintsSecret fun k ↦ { o with secretKey := some k }.ddlPairsPrefixed keys endpoint := by
  simp only [ddlPairsPrefixed]
  exact (PrintsSecret.pairIfSet _ _).append_left _

namespace SinkConfig

variable {sink : SinkConfig}

section

variable (sink : SinkConfig)

theorem connectorType_redact : sink.redact.connectorType = sink.connectorType := by
  cases sink <;> rfl

theorem deliveryFormat_redact : sink.redact.deliveryFormat = sink.deliveryFormat := by
  cases sink <;> rfl

variable (k : Option String)

theorem connectorType_withSecretKey :
    (sink.withSecretKey k).connectorType = sink.connectorType := by
  cases sink <;> rfl

theorem deliveryFormat_withSecretKey :
    (sink.withSecretKey k).deliveryFormat = sink.deliveryFormat := by
  cases sink <;> rfl

theorem isSome_secretKey_redact : sink.redact.secretKey.isSome = sink.secretKey.isSome := by
  cases sink with
  | delta | filesystem | iceberg => exact isSome_blank _
  | kafka | pulsar | mqtt => rfl

/-- **The secret key is the only secret that is printed**: the pairs can be read off the redacted
definition and the secret key. -/
theorem ddlPairs_redact : (sink.redact.withSecretKey sink.secretKey).ddlPairs = sink.ddlPairs := by
  cases sink with
  | delta | filesystem | iceberg => rfl
  | kafka brokers topic format options =>
    exact congrArg (("sink.kafka.brokers", brokers) :: ("sink.kafka.topic", topic) :: ·)
      options.ddlPairs_redact
  | pulsar format options | mqtt format options => exact options.ddlPairs_redact

end

theorem printsSecret (h : sink.secretKey.isSome) :
    PrintsSecret fun k ↦ (sink.withSecretKey (some k)).ddlPairs := by
  cases sink with
  | delta path endpoint options =>
    exact ((options.printsSecret _ _).append_left (pairIfSet "sink.delta.endpoint" _)).append_left
      [("sink.delta.path", path)]
  | filesystem path endpoint options =>
    exact ((options.printsSecret _ _).append_left
      (pairIfSet "sink.filesystem.endpoint" _)).append_left [("sink.filesystem.path", path)]
  | iceberg options =>
    simp only [withSecretKey, ddlPairs, IcebergSinkOptions.ddlPairs]
    exact (options.objectStore.printsSecret icebergOptionPrefix options.endpoint).append_left _
  | kafka | pulsar | mqtt => cases h

end SinkConfig

open SinkConfig

/-! ## What the text tells -/

theorem intercalate_append_cons (sep : String) (before behind : List String) :
    ∃ front back, ∀ x, sep.intercalate (before ++ x :: behind) = front ++ x ++ back := by
  have hback : ∃ back, ∀ x, sep.intercalate (x :: behind) = x ++ back := by
    cases behind with
    | nil => exact ⟨"", fun x ↦ by rw [String.intercalate_singleton, String.append_empty]⟩
    | cons y behind =>
      exact ⟨sep ++ sep.intercalate (y :: behind), fun x ↦ by
        rw [String.intercalate_cons_cons, String.append_assoc]⟩
  obtain ⟨back, hback⟩ := hback
  cases before with
  | nil => exact ⟨"", back, fun x ↦ by rw [nil_append, hback, String.empty_append]⟩
  | cons y before =>
    refine ⟨sep.intercalate (y :: before) ++ sep, back, fun x ↦ ?_⟩
    rw [String.intercalate_append_of_ne_nil (cons_ne_nil _ _) (cons_ne_nil _ _), hback,
      String.append_assoc, String.append_assoc, String.append_assoc]

theorem formatPair_injective {key k k' : String} (h : formatPair (key, k) = formatPair (key, k')) :
    k = k' := by
  unfold formatPair at h
  exact (String.append_right_inj _).mp ((String.append_left_inj _).mp h)

/-- The joined pairs tell the secret that is among them. -/
theorem PrintsSecret.injective {pairs : String → List (String × String)} (h : PrintsSecret pairs)
    (sep : String) {k k' : String}
    (heq : sep.intercalate ((pairs k).map formatPair) =
      sep.intercalate ((pairs k').map formatPair)) : k = k' := by
  obtain ⟨_, before, behind, hpairs⟩ := h
  obtain ⟨_, _, hjoin⟩ :=
    intercalate_append_cons sep (before.map formatPair) (behind.map formatPair)
  rw [hpairs, hpairs, map_append, map_append, map_cons, map_cons, hjoin, hjoin] at heq
  exact formatPair_injective ((String.append_right_inj _).mp ((String.append_left_inj _).mp heq))

namespace StreamDef

variable {d d' : StreamDef}

/-- The definition with another secret key. -/
def withSecretKey (d : StreamDef) (k : Option String) : StreamDef :=
  { d with sinkConfig := d.sinkConfig.withSecretKey k }

theorem formatStreamDdl_redact (d : StreamDef) :
    formatStreamDdl (d.redact.withSecretKey d.sinkConfig.secretKey) = formatStreamDdl d := by
  unfold formatStreamDdl ddlPairs withSecretKey redact
  rw [ddlPairs_redact, connectorType_withSecretKey,
    deliveryFormat_withSecretKey, connectorType_redact,
    deliveryFormat_redact]

/-- Texts of one definition with different secret keys differ. -/
theorem formatStreamDdl_injective (hset : d.sinkConfig.secretKey.isSome) {k k' : String}
    (h : formatStreamDdl (d.withSecretKey (some k)) =
      formatStreamDdl (d.withSecretKey (some k'))) : k = k' := by
  have hprt : PrintsSecret fun k ↦ (d.withSecretKey (some k)).ddlPairs := by
    unfold ddlPairs withSecretKey
    simp only [connectorType_withSecretKey, deliveryFormat_withSecretKey]
    exact ((printsSecret hset).append_left _).append_right
      (if d.autoEnd then [("cdc.auto_end", boolStr d.autoEnd)] else [])
  unfold formatStreamDdl at h
  exact hprt.injective _ ((String.append_right_inj _).mp ((String.append_left_inj _).mp h))

end StreamDef

open StreamDef in
/-- **What SHOW STREAM tells about secrets.** The texts of two definitions that are equal but for
the values of their secrets are the same if and only if both have the same secret key for the object
store they write to, or write to none. -/
theorem formatStreamDdl_eq_iff {d d' : StreamDef} (h : d.redact = d'.redact) :
    formatStreamDdl d = formatStreamDdl d' ↔ d.sinkConfig.secretKey = d'.sinkConfig.secretKey := by
  rw [← formatStreamDdl_redact d, ← formatStreamDdl_redact d', h]
  refine ⟨fun htext ↦ ?_, fun heq ↦ by rw [heq]⟩
  have hsome (e : StreamDef) :
      e.redact.sinkConfig.secretKey.isSome = e.sinkConfig.secretKey.isSome :=
    e.sinkConfig.isSome_secretKey_redact
  have hsame : d.sinkConfig.secretKey.isSome = d'.sinkConfig.secretKey.isSome := by
    rw [← hsome d, h, hsome d']
  cases hk : d.sinkConfig.secretKey with
  | none =>
    rw [hk, Option.isSome_none] at hsame
    exact (Option.isNone_iff_eq_none.mp (Option.isSome_eq_false_iff.mp hsame.symm)).symm
  | some k =>
    obtain ⟨_, hk'⟩ := Option.isSome_iff_exists.mp (hsame.symm.trans (by rw [hk]; rfl))
    rw [hk, hk'] at htext
    have hset : d'.redact.sinkConfig.secretKey.isSome := by rw [hsome d', hk']; rfl
    rw [hk', formatStreamDdl_injective hset htext]

/-- A sink in an object store, with a secret key. -/
def deltaStream (secretKey : String) : StreamDef where
  name := "s"
  sourceTables := ["t"]
  captureMode := .hybrid
  sinkConfig := .delta "s3://bucket/t" none
    ⟨some "AKIA", some secretKey, "us-east-1", none, 500, 200000, 20⟩
  autoEnd := false

/-- A Kafka sink, with all its passwords. -/
def kafkaStream (password : String) : StreamDef where
  name := "s"
  sourceTables := ["t"]
  captureMode := .batch
  sinkConfig := .kafka "broker:9092" "topic" "json"
    ⟨none, [], "", .default, .atLeastOnce, none, none, none, none, none, none, none, none,
      some "PLAIN", some "user", some password, none, some password, none, none, some password,
      none, some password⟩
  autoEnd := false

theorem kafka_text_hides_passwords :
    (kafkaStream "a").redact = (kafkaStream "b").redact ∧
      formatStreamDdl (kafkaStream "a") = formatStreamDdl (kafkaStream "b") :=
  have h : (kafkaStream "a").redact = (kafkaStream "b").redact := rfl
  ⟨h, (formatStreamDdl_eq_iff h).mpr rfl⟩

theorem delta_text_shows_secretKey :
    (deltaStream "a").redact = (deltaStream "b").redact ∧
      formatStreamDdl (deltaStream "a") ≠ formatStreamDdl (deltaStream "b") := by
  refine ⟨rfl, fun h ↦ ?_⟩
  have hkey : "a" = "b" := StreamDef.formatStreamDdl_injective (d := deltaStream "a") rfl h
  exact absurd hkey (by decide)

end MonoTS
