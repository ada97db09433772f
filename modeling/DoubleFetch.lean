import DoubleFetch.AutoFix.Safety
import DoubleFetch.AutoFix.Start
import DoubleFetch.AutoFix.Transparent
import DoubleFetch.Cocci.Members
import DoubleFetch.Cocci.Start
import DoubleFetch.TextFilter.Monotone
import DoubleFetch.TextFilter.Reorder
import DoubleFetch.TextFilter.Session
import DoubleFetch.TextFilter.Truncated
