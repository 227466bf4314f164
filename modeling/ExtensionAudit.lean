import ExtensionAudit.Main
import ExtensionAudit.Proofs.Analysis
import ExtensionAudit.Proofs.Completion
import ExtensionAudit.Proofs.Frame
import ExtensionAudit.Proofs.Outputs
import ExtensionAudit.Proofs.Readings
import ExtensionAudit.Proofs.Scan.Growth
import ExtensionAudit.Proofs.Walk.Coverage
import ExtensionAudit.Proofs.Log.History
import ExtensionAudit.Proofs.Scan.Remote
import ExtensionAudit.Proofs.Scan.Session
import ExtensionAudit.Proofs.Independence
import ExtensionAudit.Proofs.Scan.Moved
import ExtensionAudit.Proofs.Walk.Ending
import ExtensionAudit.Proofs.Detect.Calls
import ExtensionAudit.Proofs.Detect.Spans
import ExtensionAudit.Proofs.Detect.Brackets
import ExtensionAudit.Proofs.Detect.UrlInCall
import ExtensionAudit.Proofs.Summary
import ExtensionAudit.Proofs.Detect.Denylists
import ExtensionAudit.Proofs.Utf8.Lossy
import ExtensionAudit.Proofs.LineEndings
import ExtensionAudit.Proofs.Scan.Contents
import ExtensionAudit.Proofs.Scan.Limits
import ExtensionAudit.Proofs.Walk.Order
import ExtensionAudit.Proofs.Walk.Refusals
import ExtensionAudit.Proofs.Discovery
import ExtensionAudit.Proofs.Sarif
import ExtensionAudit.Proofs.Branches
import ExtensionAudit.Proofs.Settings
import ExtensionAudit.Proofs.Json.Members
import ExtensionAudit.Proofs.Manifest
import ExtensionAudit.Proofs.Retracing
import ExtensionAudit.Proofs.Repository
import ExtensionAudit.Proofs.Offers
