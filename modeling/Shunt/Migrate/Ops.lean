/-
The operations of the S3 API, the class each is routed by, and which of them can change a
backend bucket.
-/

import Shunt.Migrate.Route

namespace Shunt.Migrate

inductive Level where
  | service
  | bucket
  | object
  deriving DecidableEq

inductive Op where
  | unknown
  | preflight
  | listBuckets
  | createBucket
  | deleteBucket
  | headBucket
  | listObjects
  | listObjectsV2
  | listObjectVersions
  | listMultipartUploads
  | deleteObjects
  | postObject
  | getBucketLocation
  | getBucketAcl
  | putBucketAcl
  | getBucketCors
  | putBucketCors
  | deleteBucketCors
  | getBucketLifecycleConfiguration
  | putBucketLifecycleConfiguration
  | deleteBucketLifecycle
  | getBucketLogging
  | putBucketLogging
  | getBucketNotificationConfiguration
  | putBucketNotificationConfiguration
  | getObjectLockConfiguration
  | putObjectLockConfiguration
  | getBucketOwnershipControls
  | putBucketOwnershipControls
  | deleteBucketOwnershipControls
  | getBucketPolicy
  | putBucketPolicy
  | deleteBucketPolicy
  | getBucketPolicyStatus
  | getBucketReplication
  | putBucketReplication
  | deleteBucketReplication
  | getBucketRequestPayment
  | putBucketRequestPayment
  | getBucketTagging
  | putBucketTagging
  | deleteBucketTagging
  | getBucketVersioning
  | putBucketVersioning
  | getBucketWebsite
  | putBucketWebsite
  | deleteBucketWebsite
  | getBucketEncryption
  | putBucketEncryption
  | deleteBucketEncryption
  | getBucketAccelerateConfiguration
  | putBucketAccelerateConfiguration
  | getPublicAccessBlock
  | putPublicAccessBlock
  | deletePublicAccessBlock
  | getBucketAnalyticsConfiguration
  | putBucketAnalyticsConfiguration
  | deleteBucketAnalyticsConfiguration
  | listBucketAnalyticsConfigurations
  | getBucketIntelligentTieringConfiguration
  | putBucketIntelligentTieringConfiguration
  | deleteBucketIntelligentTieringConfiguration
  | listBucketIntelligentTieringConfigurations
  | getBucketInventoryConfiguration
  | putBucketInventoryConfiguration
  | deleteBucketInventoryConfiguration
  | listBucketInventoryConfigurations
  | getBucketMetricsConfiguration
  | putBucketMetricsConfiguration
  | deleteBucketMetricsConfiguration
  | listBucketMetricsConfigurations
  | getObject
  | headObject
  | putObject
  | copyObject
  | deleteObject
  | getObjectAcl
  | putObjectAcl
  | getObjectAttributes
  | getObjectTagging
  | putObjectTagging
  | deleteObjectTagging
  | getObjectLegalHold
  | putObjectLegalHold
  | getObjectRetention
  | putObjectRetention
  | getObjectTorrent
  | restoreObject
  | selectObjectContent
  | createMultipartUpload
  | uploadPart
  | uploadPartCopy
  | completeMultipartUpload
  | abortMultipartUpload
  | listParts
  deriving DecidableEq

def Op.text : Op → String
  | .unknown => "Unknown"
  | .preflight => "Preflight"
  | .listBuckets => "ListBuckets"
  | .createBucket => "CreateBucket"
  | .deleteBucket => "DeleteBucket"
  | .headBucket => "HeadBucket"
  | .listObjects => "ListObjects"
  | .listObjectsV2 => "ListObjectsV2"
  | .listObjectVersions => "ListObjectVersions"
  | .listMultipartUploads => "ListMultipartUploads"
  | .deleteObjects => "DeleteObjects"
  | .postObject => "PostObject"
  | .getBucketLocation => "GetBucketLocation"
  | .getBucketAcl => "GetBucketAcl"
  | .putBucketAcl => "PutBucketAcl"
  | .getBucketCors => "GetBucketCors"
  | .putBucketCors => "PutBucketCors"
  | .deleteBucketCors => "DeleteBucketCors"
  | .getBucketLifecycleConfiguration => "GetBucketLifecycleConfiguration"
  | .putBucketLifecycleConfiguration => "PutBucketLifecycleConfiguration"
  | .deleteBucketLifecycle => "DeleteBucketLifecycle"
  | .getBucketLogging => "GetBucketLogging"
  | .putBucketLogging => "PutBucketLogging"
  | .getBucketNotificationConfiguration => "GetBucketNotificationConfiguration"
  | .putBucketNotificationConfiguration => "PutBucketNotificationConfiguration"
  | .getObjectLockConfiguration => "GetObjectLockConfiguration"
  | .putObjectLockConfiguration => "PutObjectLockConfiguration"
  | .getBucketOwnershipControls => "GetBucketOwnershipControls"
  | .putBucketOwnershipControls => "PutBucketOwnershipControls"
  | .deleteBucketOwnershipControls => "DeleteBucketOwnershipControls"
  | .getBucketPolicy => "GetBucketPolicy"
  | .putBucketPolicy => "PutBucketPolicy"
  | .deleteBucketPolicy => "DeleteBucketPolicy"
  | .getBucketPolicyStatus => "GetBucketPolicyStatus"
  | .getBucketReplication => "GetBucketReplication"
  | .putBucketReplication => "PutBucketReplication"
  | .deleteBucketReplication => "DeleteBucketReplication"
  | .getBucketRequestPayment => "GetBucketRequestPayment"
  | .putBucketRequestPayment => "PutBucketRequestPayment"
  | .getBucketTagging => "GetBucketTagging"
  | .putBucketTagging => "PutBucketTagging"
  | .deleteBucketTagging => "DeleteBucketTagging"
  | .getBucketVersioning => "GetBucketVersioning"
  | .putBucketVersioning => "PutBucketVersioning"
  | .getBucketWebsite => "GetBucketWebsite"
  | .putBucketWebsite => "PutBucketWebsite"
  | .deleteBucketWebsite => "DeleteBucketWebsite"
  | .getBucketEncryption => "GetBucketEncryption"
  | .putBucketEncryption => "PutBucketEncryption"
  | .deleteBucketEncryption => "DeleteBucketEncryption"
  | .getBucketAccelerateConfiguration => "GetBucketAccelerateConfiguration"
  | .putBucketAccelerateConfiguration => "PutBucketAccelerateConfiguration"
  | .getPublicAccessBlock => "GetPublicAccessBlock"
  | .putPublicAccessBlock => "PutPublicAccessBlock"
  | .deletePublicAccessBlock => "DeletePublicAccessBlock"
  | .getBucketAnalyticsConfiguration => "GetBucketAnalyticsConfiguration"
  | .putBucketAnalyticsConfiguration => "PutBucketAnalyticsConfiguration"
  | .deleteBucketAnalyticsConfiguration => "DeleteBucketAnalyticsConfiguration"
  | .listBucketAnalyticsConfigurations => "ListBucketAnalyticsConfigurations"
  | .getBucketIntelligentTieringConfiguration => "GetBucketIntelligentTieringConfiguration"
  | .putBucketIntelligentTieringConfiguration => "PutBucketIntelligentTieringConfiguration"
  | .deleteBucketIntelligentTieringConfiguration => "DeleteBucketIntelligentTieringConfiguration"
  | .listBucketIntelligentTieringConfigurations => "ListBucketIntelligentTieringConfigurations"
  | .getBucketInventoryConfiguration => "GetBucketInventoryConfiguration"
  | .putBucketInventoryConfiguration => "PutBucketInventoryConfiguration"
  | .deleteBucketInventoryConfiguration => "DeleteBucketInventoryConfiguration"
  | .listBucketInventoryConfigurations => "ListBucketInventoryConfigurations"
  | .getBucketMetricsConfiguration => "GetBucketMetricsConfiguration"
  | .putBucketMetricsConfiguration => "PutBucketMetricsConfiguration"
  | .deleteBucketMetricsConfiguration => "DeleteBucketMetricsConfiguration"
  | .listBucketMetricsConfigurations => "ListBucketMetricsConfigurations"
  | .getObject => "GetObject"
  | .headObject => "HeadObject"
  | .putObject => "PutObject"
  | .copyObject => "CopyObject"
  | .deleteObject => "DeleteObject"
  | .getObjectAcl => "GetObjectAcl"
  | .putObjectAcl => "PutObjectAcl"
  | .getObjectAttributes => "GetObjectAttributes"
  | .getObjectTagging => "GetObjectTagging"
  | .putObjectTagging => "PutObjectTagging"
  | .deleteObjectTagging => "DeleteObjectTagging"
  | .getObjectLegalHold => "GetObjectLegalHold"
  | .putObjectLegalHold => "PutObjectLegalHold"
  | .getObjectRetention => "GetObjectRetention"
  | .putObjectRetention => "PutObjectRetention"
  | .getObjectTorrent => "GetObjectTorrent"
  | .restoreObject => "RestoreObject"
  | .selectObjectContent => "SelectObjectContent"
  | .createMultipartUpload => "CreateMultipartUpload"
  | .uploadPart => "UploadPart"
  | .uploadPartCopy => "UploadPartCopy"
  | .completeMultipartUpload => "CompleteMultipartUpload"
  | .abortMultipartUpload => "AbortMultipartUpload"
  | .listParts => "ListParts"

/-- The routing class of an operation.  Everything not named is bucket configuration. -/
def opClass : Op → OpClass
  -- pinned by the upload id they carry
  | .uploadPart | .uploadPartCopy | .completeMultipartUpload | .abortMultipartUpload
  | .listParts => .upload
  | .getObject | .headObject | .getObjectAcl | .getObjectAttributes | .getObjectTagging
  | .getObjectLegalHold | .getObjectRetention | .getObjectTorrent | .selectObjectContent => .read
  | .putObject | .copyObject | .postObject | .createMultipartUpload | .putObjectAcl
  | .putObjectTagging | .putObjectLegalHold | .putObjectRetention | .restoreObject => .write
  | .deleteObject | .deleteObjects | .deleteObjectTagging => .delete
  | .listObjects | .listObjectsV2 | .listObjectVersions | .listMultipartUploads => .list
  | .listBuckets => .service
  | _ => .bucket

def mutates (op : Op) (method : String) : Bool :=
  match opClass op with
  | .write | .delete => true
  | .read | .list | .service => false
  | .bucket | .upload => decide (method ≠ "GET" ∧ method ≠ "HEAD" ∧ method ≠ "OPTIONS")

def refusedOps : Op → Bool
  | .getBucketLogging | .putBucketLogging
  | .getBucketReplication | .putBucketReplication | .deleteBucketReplication
  | .getBucketInventoryConfiguration | .putBucketInventoryConfiguration
  | .deleteBucketInventoryConfiguration | .listBucketInventoryConfigurations
  | .getBucketAnalyticsConfiguration | .putBucketAnalyticsConfiguration
  | .deleteBucketAnalyticsConfiguration | .listBucketAnalyticsConfigurations
  | .getBucketNotificationConfiguration | .putBucketNotificationConfiguration => true
  | _ => false

end Shunt.Migrate
