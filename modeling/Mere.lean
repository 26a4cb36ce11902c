import Mere.Mesh.Order
import Mere.Mesh.Checkpoint
import Mere.Mesh.Grants
import Mere.Stemma.Integrity
import Mere.Muniment.Causes
import Mere.Chartulary.Merge
import Mere.Chartulary.Mint
import Mere.Servitor.Delegation
import Mere.Servitor.Gate
import Mere.Gemot.Convergence
import Mere.Gemot.Delegation
import Mere.Gemot.Tulpa
import Mere.Kernel.Buckets
import Mere.Kernel.Relations
import Mere.Kernel.UrlIndex
import Mere.Stickleback.Causal
import Mere.Stickleback.Erasure
import Mere.Commons.Call
import Mere.Notochord.Authority
import Mere.Pandect.Enroll
import Mere.Pandect.Retry
import Mere.Personae.Approval
import Mere.Personae.Freshness
import Mere.Forme.Rows
import Mere.Gemot.Gate
import Mere.Mesh.Lexical
import Mere.Notochord.Transcript
import Mere.Pandect.Retirement
